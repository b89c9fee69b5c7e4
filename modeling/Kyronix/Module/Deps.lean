import Kyronix.Lib.Run
import Kyronix.Lib.Deps
import Kyronix.Module.Loader

/-! The dependencies of loaded modules: the counts are right, what a module depends on is live and
older, and no word of a live module was made from a symbol of one that is gone. -/
namespace Kyronix.Module

open Lib Lib.Run Lib.Deps Function List Modules

section

variable {s s' : Modules} {k c p : Slot} {m : LoadedModule}

def Modules.deps (s : Modules) (k : Slot) : List Slot := (s.slot k).deps

def Modules.users (s : Modules) (k : Slot) : ℕ := (s.slot k).users

@[simp] theorem Modules.set_self (s : Modules) (k : Slot) (m : LoadedModule) :
    (s.set k m).slot k = m := update_self ..

theorem Modules.set_ne (s : Modules) (m : LoadedModule) (h : c ≠ k) :
    (s.set k m).slot c = s.slot c := update_of_ne h ..

structure Wired (s : Modules) : Prop where
  counted : Counted s.deps s.users
  live : ∀ c, ∀ p ∈ s.deps c, (s.slot p).state = .live
  order : ∀ c, ∀ p ∈ s.deps c, (s.slot p).load < (s.slot c).load
  empty : ∀ c, (s.slot c).state = .empty → s.deps c = [] ∧ (s.slot c).words = []
  fresh : ∀ c, (s.slot c).state ≠ .empty → (s.slot c).load < s.loads
  source : ∀ c, ∀ w ∈ (s.slot c).words, ∀ p g, w.source = some (p, g) →
    p ∈ s.deps c ∧ (s.slot p).load = g

theorem Wired.users_zero (h : Wired s) (hk : (s.slot k).state ≠ .live) : s.users k = 0 :=
  h.counted.zero fun c hc => hk (h.live c k hc)

theorem Wired.notMem (h : Wired s) (hk : s.users k = 0) (c : Slot) : k ∉ s.deps c :=
  h.counted.notMem_of_zero hk c

theorem deps_set (s : Modules) (k : Slot) (m : LoadedModule) :
    (s.set k m).deps = update s.deps k m.deps := by
  funext c
  by_cases hc : c = k
  · subst hc
    rw [update_self, deps, set_self]
  · rw [update_of_ne hc, deps, set_ne _ _ hc, deps]

theorem users_set (s : Modules) (k : Slot) (m : LoadedModule) :
    (s.set k m).users = update s.users k m.users := by
  funext c
  by_cases hc : c = k
  · subst hc
    rw [update_self, users, set_self]
  · rw [update_of_ne hc, users, set_ne _ _ hc, users]

structure Fits (s : Modules) (k : Slot) (m : LoadedModule) (loads : ℕ) : Prop where
  dep : ∀ p ∈ m.deps, p ≠ k ∧ (s.slot p).state = .live ∧ (s.slot p).load < m.load
  empty : m.state = .empty → m.deps = [] ∧ m.words = []
  fresh : m.state ≠ .empty → m.load < loads
  source : ∀ w ∈ m.words, ∀ p g, w.source = some (p, g) → p ∈ m.deps ∧ (s.slot p).load = g

theorem Wired.dep (h : Wired s) (hp : p ∈ s.deps c) :
    p ≠ c ∧ (s.slot p).state = .live ∧ (s.slot p).load < (s.slot c).load := by
  refine ⟨?_, h.live c p hp, h.order c p hp⟩
  rintro rfl
  exact absurd (h.order p p hp) (lt_irrefl _)

theorem Wired.replace (h : Wired s) (hcounted : Counted s'.deps s'.users)
    (hloads : s.loads ≤ s'.loads) (hrest : ∀ c ≠ k, ∃ u, s'.slot c = { s.slot c with users := u })
    (hk : Fits s k (s'.slot k) s'.loads)
    (hstay : ∀ c, k ∈ s.deps c →
      (s'.slot k).state = .live ∧ (s'.slot k).load = (s.slot k).load) : Wired s' := by
  have hsame : ∀ c ≠ k, (s'.slot c).state = (s.slot c).state ∧
      (s'.slot c).load = (s.slot c).load ∧ (s'.slot c).words = (s.slot c).words ∧
      s'.deps c = s.deps c := by
    intro c hc
    obtain ⟨u, hu⟩ := hrest c hc
    rw [deps, hu]
    exact ⟨rfl, rfl, rfl, rfl⟩
  have hdep : ∀ c, ∀ p ∈ s.deps c, (s'.slot p).state = .live ∧
      (s'.slot p).load = (s.slot p).load := by
    intro c p hp
    by_cases hpk : p = k
    · rw [hpk] at hp ⊢
      exact hstay c hp
    · rw [(hsame p hpk).1, (hsame p hpk).2.1]
      exact ⟨h.live c p hp, rfl⟩
  refine ⟨hcounted, fun c p hp => ?_, fun c p hp => ?_, fun c hc => ?_, fun c hc => ?_,
    fun c w hw p g hs => ?_⟩ <;> by_cases hck : c = k
  · rw [hck] at hp
    obtain ⟨hpk, hlive, -⟩ := hk.dep p hp
    exact (hsame p hpk).1.trans hlive
  · rw [(hsame c hck).2.2.2] at hp
    exact (hdep c p hp).1
  · rw [hck] at hp ⊢
    obtain ⟨hpk, -, hlt⟩ := hk.dep p hp
    exact (hsame p hpk).2.1.trans_lt hlt
  · rw [(hsame c hck).2.2.2] at hp
    rw [(hdep c p hp).2, (hsame c hck).2.1]
    exact h.order c p hp
  · rw [hck] at hc ⊢
    exact hk.empty hc
  · rw [(hsame c hck).1] at hc
    rw [(hsame c hck).2.2.1, (hsame c hck).2.2.2]
    exact h.empty c hc
  · rw [hck] at hc ⊢
    exact hk.fresh hc
  · rw [(hsame c hck).1] at hc
    exact (hsame c hck).2.1.trans_lt ((h.fresh c hc).trans_le hloads)
  · rw [hck] at hw ⊢
    obtain ⟨hp, hg⟩ := hk.source w hw p g hs
    exact ⟨hp, (hsame p (hk.dep p hp).1).2.1.trans hg⟩
  · rw [(hsame c hck).2.2.1] at hw
    obtain ⟨hp, hg⟩ := h.source c w hw p g hs
    rw [(hsame c hck).2.2.2]
    exact ⟨hp, (hdep c p hp).2.trans hg⟩

theorem Wired.revise (h : Wired s) (hdeps : m.deps = s.deps k) (husers : m.users = s.users k)
    (hload : m.load = (s.slot k).load) (hold : (s.slot k).state ≠ .empty)
    (hnew : m.state ≠ .empty) (hlive : m.state = .live ∨ s.users k = 0)
    (hwords : ∀ w ∈ m.words, ∀ p g, w.source = some (p, g) →
      p ∈ s.deps k ∧ (s.slot p).load = g) : Wired (s.set k m) := by
  refine h.replace ?_ le_rfl (fun c hc => ⟨_, set_ne s m hc⟩) ?_ fun c hc => ?_
  · rw [deps_set, hdeps, update_eq_self, users_set, husers, update_eq_self]
    exact h.counted
  · rw [set_self]
    refine ⟨fun p hp => ?_, fun he => absurd he hnew, fun _ => ?_, by rwa [hdeps]⟩
    · rw [hload]
      exact h.dep (hdeps ▸ hp)
    · exact hload.trans_lt (h.fresh k hold)
  · rw [set_self]
    exact ⟨hlive.resolve_right fun h₀ => h.notMem h₀ c hc, hload⟩

theorem Wired.reserve (h : Wired s) (hk : (s.slot k).state = .empty) (hdeps : m.deps = [])
    (husers : m.users = 0) (hwords : m.words = []) (hload : m.load = s.loads) :
    Wired { s.set k m with loads := s.loads + 1 } := by
  have husers₀ : s.users k = 0 := h.users_zero (by rw [hk]; decide)
  have hself : (s.set k m).slot k = m := set_self ..
  refine h.replace ?_ (Nat.le_succ _) (fun c hc => ⟨_, set_ne s m hc⟩) ?_
    fun c hc => absurd hc (h.notMem husers₀ c)
  · change Counted (s.set k m).deps (s.set k m).users
    rw [deps_set, hdeps, ← (h.empty k hk).1, update_eq_self, users_set, husers, ← husers₀,
      update_eq_self]
    exact h.counted
  · show Fits s k ((s.set k m).slot k) (s.loads + 1)
    rw [hself]
    refine ⟨?_, fun _ => ⟨hdeps, hwords⟩, fun _ => ?_, ?_⟩
    · simp [hdeps]
    · rw [hload]
      exact Nat.lt_succ_self _
    · simp [hwords]

theorem slot_depend (s : Modules) (h : p ≠ k) (c : Slot) :
    (s.depend k p).slot c =
      { s.slot c with
        deps := update s.deps k (s.deps k ++ [p]) c
        users := update s.users p (s.users p + 1) c } := by
  unfold depend
  dsimp only
  rw [set_ne _ _ h]
  by_cases hcp : c = p
  · rw [hcp, set_self, update_self, update_of_ne h]
    rfl
  rw [set_ne _ _ hcp, update_of_ne hcp]
  by_cases hck : c = k
  · rw [hck, set_self, update_self]
    rfl
  · rw [set_ne _ _ hck, update_of_ne hck]
    rfl

theorem Wired.depend (h : Wired s) (hk : (s.slot k).state ≠ .empty) (hpk : p ≠ k)
    (hlive : (s.slot p).state = .live) (hload : (s.slot p).load < (s.slot k).load)
    (hnot : p ∉ s.deps k) : Wired (s.depend k p) := by
  have hslot := slot_depend s hpk
  refine h.replace (k := k) ?_ le_rfl (fun c hc => ?_) ?_ fun c hc => ?_
  · have hd : (s.depend k p).deps = update s.deps k (s.deps k ++ [p]) := by
      funext c
      rw [deps, hslot]
    have hu : (s.depend k p).users = update s.users p (s.users p + 1) := by
      funext c
      rw [users, hslot]
    rw [hd, hu]
    exact h.counted.depend hnot
  · rw [hslot, update_of_ne hc]
    exact ⟨_, rfl⟩
  · rw [hslot, update_self]
    refine ⟨fun q hq => ?_, fun he => absurd he hk, fun he => h.fresh k he, fun w hw q g hs => ?_⟩
    · rcases mem_append.mp hq with hq | hq
      · exact h.dep hq
      · rw [mem_singleton.mp hq]
        exact ⟨hpk, hlive, hload⟩
    · exact (h.source k w hw q g hs).imp_left (mem_append_left _)
  · rw [hslot]
    exact ⟨h.live c k hc, rfl⟩

theorem slot_foldl_releaseUser (l : List Slot) (s : Modules) (c : Slot) :
    (l.foldl releaseUser s).slot c =
      { s.slot c with users := (s.slot c).users - l.count c } := by
  induction l generalizing s with
  | nil => rfl
  | cons p l ih =>
    rw [foldl_cons, ih, releaseUser]
    by_cases hc : c = p
    · subst hc
      rw [count_cons_self]
      split
      · next h₀ =>
        rw [h₀, Nat.zero_sub, Nat.zero_sub]
      · rw [set_self, Nat.sub_sub, Nat.add_comm]
    · rw [count_cons_of_ne (Ne.symm hc)]
      split
      · rfl
      · rw [set_ne _ _ hc]

theorem loads_foldl_releaseUser (l : List Slot) (s : Modules) :
    (l.foldl releaseUser s).loads = s.loads := by
  induction l generalizing s with
  | nil => rfl
  | cons p l ih =>
    rw [foldl_cons, ih, releaseUser]
    split <;> rfl

theorem slot_abandonModule (s : Modules) {k c : Slot} (h : c ≠ k) :
    (abandonModule s k).slot c =
      { s.slot c with users := (s.slot c).users - (s.deps k).count c } := by
  rw [abandonModule, set_ne _ _ h, releaseDependencies, set_ne _ _ h,
    slot_foldl_releaseUser]
  rfl

theorem Wired.abandonModule (h : Wired s) (hk : s.users k = 0) : Wired (abandonModule s k) := by
  have hself : (Module.abandonModule s k).slot k = {} := set_self ..
  have hd : (Module.abandonModule s k).deps = update s.deps k [] := by
    funext c
    by_cases hc : c = k
    · rw [hc, update_self, deps, hself]
    · rw [update_of_ne hc, deps, slot_abandonModule s hc]
      rfl
  have hu : (Module.abandonModule s k).users = fun p => s.users p - (s.deps k).count p := by
    funext c
    by_cases hc : c = k
    · rw [hc, hk, Nat.zero_sub, users, hself]
    · rw [users, slot_abandonModule s hc, users]
  refine h.replace ?_ (loads_foldl_releaseUser (s.deps k) s).ge
    (fun c hc => ⟨_, slot_abandonModule s hc⟩) ?_ fun c hc => absurd hc (h.notMem hk c)
  · rw [hd, hu]
    exact h.counted.forget k
  · rw [hself]
    exact ⟨nofun, fun _ => ⟨rfl, rfl⟩, fun he => absurd rfl he, nofun⟩

def SameLoads (s s' : Modules) : Prop :=
  s'.loads = s.loads ∧ ∀ c, (s'.slot c).state = (s.slot c).state ∧
    (s'.slot c).load = (s.slot c).load

theorem SameLoads.set {s₀ : Modules} (h : SameLoads s₀ s) (hstate : m.state = (s.slot k).state)
    (hload : m.load = (s.slot k).load) : SameLoads s₀ (s.set k m) := by
  refine ⟨h.1, fun c => ?_⟩
  by_cases hc : c = k
  · subst hc
    rw [set_self, hstate, hload]
    exact h.2 c
  · rw [set_ne _ _ hc]
    exact h.2 c

structure Reserved (s : Modules) (k : Slot) : Prop where
  state : (s.slot k).state = .loading
  others : ∀ c ≠ k, (s.slot c).state = .empty ∨ (s.slot c).state = .live
  last : ∀ c ≠ k, (s.slot c).state = .live → (s.slot c).load < (s.slot k).load

structure Underway (s₀ : Modules) (k : Slot) (s : Modules) : Prop where
  wired : Wired s
  same : SameLoads s₀ s

section

variable {s₀ : Modules}

theorem Underway.state (h : Underway s₀ k s) (hr : Reserved s₀ k) :
    (s.slot k).state = .loading := (h.same.2 k).1.trans hr.state

theorem Underway.users (h : Underway s₀ k s) (hr : Reserved s₀ k) : s.users k = 0 :=
  h.wired.users_zero (by rw [h.state hr]; decide)

def Sourced (s : Modules) (k : Slot) (source : Option (Slot × ℕ)) : Prop :=
  ∀ p g, source = some (p, g) → p ∈ s.deps k ∧ (s.slot p).load = g

theorem sourced_none : Sourced s k none := fun _ _ h => by cases h

theorem Underway.addDependency (h : Underway s₀ k s) (hr : Reserved s₀ k)
    (hp : (s.slot p).state = .live) :
    Underway s₀ k (addDependency s k p).2 ∧
      ((addDependency s k p).1 = .ok () → p ∈ (addDependency s k p).2.deps k) := by
  have hpk : p ≠ k := by
    intro he
    rw [he, h.state hr] at hp
    cases hp
  unfold Module.addDependency
  split
  · next hin => exact ⟨h, fun _ => hin⟩
  split
  · exact ⟨h, fun he => by cases he⟩
  next hnot _ =>
  have hlast : (s.slot p).load < (s.slot k).load := by
    rw [(h.same.2 p).2, (h.same.2 k).2]
    exact hr.last p hpk ((h.same.2 p).1.symm.trans hp)
  have hk : (s.slot k).state ≠ .empty := by
    rw [h.state hr]
    decide
  have hslot := slot_depend s hpk
  refine ⟨⟨h.wired.depend hk hpk hp hlast hnot, h.same.1, fun c => ?_⟩, fun _ => ?_⟩
  · dsimp only
    rw [hslot]
    exact h.same.2 c
  · dsimp only
    rw [deps, hslot, update_self]
    exact mem_append_right _ (mem_singleton_self p)

theorem findExport_live {name : CStr} {addr : ℕ} (h : findExport s name = some (p, addr)) :
    (s.slot p).state = .live := by
  obtain ⟨i, -, hi⟩ := exists_of_findSome?_eq_some h
  by_cases hlive : (s.slot i).state = .live
  · rw [if_neg (not_not.mpr hlive)] at hi
    obtain ⟨e, -, he⟩ := Option.map_eq_some_iff.mp hi
    cases he
    exact hlive
  · rw [if_pos hlive] at hi
    cases hi

theorem Underway.loadedSymbol (h : Underway s₀ k s) (kallsyms : CStr → ℕ) (hr : Reserved s₀ k)
    (name : CStr) :
    Underway s₀ k (loadedSymbol kallsyms s k name).2 ∧
      ∀ addr source, (loadedSymbol kallsyms s k name).1 = .ok (addr, source) →
        Sourced (loadedSymbol kallsyms s k name).2 k source := by
  unfold Module.loadedSymbol
  split
  · refine ⟨h, fun addr source he => ?_⟩
    cases he
    exact sourced_none
  cases hf : findExport s name with
  | none =>
    refine ⟨h, fun addr source he => ?_⟩
    cases he
    exact sourced_none
  | some found =>
    obtain ⟨p, addr⟩ := found
    obtain ⟨hnext, hdep⟩ := h.addDependency hr (findExport_live hf)
    dsimp only
    rcases ha : Module.addDependency s k p with ⟨_ | _, s'⟩ <;> rw [ha] at hnext hdep
    · refine ⟨hnext, fun addr source he => ?_⟩
      cases he
    · refine ⟨hnext, fun addr source he => ?_⟩
      cases he
      intro q g hq
      cases hq
      exact ⟨hdep rfl, rfl⟩

theorem Underway.symbolValue (h : Underway s₀ k s) (kallsyms : CStr → ℕ) (img : Image)
    (secAddr : ℕ → ℕ) (hr : Reserved s₀ k) (symtab : Shdr) (index : ℕ) :
    Underway s₀ k (symbolValue kallsyms img secAddr s k symtab index).2 ∧
      ∀ value source, (symbolValue kallsyms img secAddr s k symtab index).1 = .ok (value, source) →
        Sourced (symbolValue kallsyms img secAddr s k symtab index).2 k source := by
  have hfail : ∀ e : ℤ, ∀ (value : ℕ) (source : Option (Slot × ℕ)),
      Except.error e = .ok (value, source) → Sourced s k source := fun _ _ _ he => by cases he
  have hown : ∀ v : ℕ, ∀ (value : ℕ) (source : Option (Slot × ℕ)),
      (.ok (v, none) : Except ℤ _) = .ok (value, source) → Sourced s k source := by
    intro v value source he
    cases he
    exact sourced_none
  unfold Module.symbolValue
  split
  · exact ⟨h, hfail _⟩
  dsimp only
  split
  · split
    · exact ⟨h, hfail _⟩
    next name _ =>
    obtain ⟨hnext, hsource⟩ := h.loadedSymbol kallsyms hr name
    rcases hl : Module.loadedSymbol kallsyms s k name with ⟨_ | ⟨addr, source⟩, s'⟩ <;>
      rw [hl] at hnext hsource
    · exact ⟨hnext, fun _ _ he => by cases he⟩
    · dsimp only
      split
      · exact ⟨hnext, fun _ _ he => by cases he⟩
      · exact ⟨hnext, hsource⟩
  split
  · exact ⟨h, hown _⟩
  split
  · exact ⟨h, hfail _⟩
  split
  · exact ⟨h, hfail _⟩
  · exact ⟨h, hown _⟩

theorem Underway.writeWord (h : Underway s₀ k s) (hr : Reserved s₀ k) {w : Word}
    (hw : Sourced s k w.source) : Underway s₀ k (writeWord s k w) := by
  have hstate := h.state hr
  refine ⟨h.wired.revise rfl rfl rfl ?_ ?_ (.inr (h.users hr)) ?_, h.same.set rfl rfl⟩
  · rw [hstate]
    decide
  · show (s.slot k).state ≠ _
    rw [hstate]
    decide
  · intro v hv
    rcases mem_append.mp hv with hv | hv
    · exact h.wired.source k v hv
    · rw [mem_singleton.mp hv]
      exact hw

theorem Underway.applyRelocation {kallsyms : CStr → ℕ} {img : Image} {secAddr : ℕ → ℕ}
    (h : Underway s₀ k s) (hr : Reserved s₀ k) (rela symtab : Shdr)
    (r : Rela) :
    Underway s₀ k (applyRelocation kallsyms img secAddr k rela symtab r s).2 := by
  unfold Module.applyRelocation
  dsimp only
  split
  · exact h
  obtain ⟨hnext, hsource⟩ :=
    h.symbolValue kallsyms img secAddr hr symtab (r.rInfo / 2 ^ 32)
  rcases hv : Module.symbolValue kallsyms img secAddr s k symtab (r.rInfo / 2 ^ 32) with
    ⟨_ | ⟨symbol, source⟩, s'⟩ <;> rw [hv] at hnext hsource
  · exact hnext
  dsimp only
  split
  · exact hnext
  · exact hnext
  · exact hnext.writeWord hr (hsource _ _ rfl)

theorem untilError_inv {α : Type*} {P : Modules → Prop}
    {f : α → Modules → Except ℤ Unit × Modules} (hf : ∀ a s, P s → P (f a s).2) (as : List α)
    (h : P s) : P (untilError f as s).2 := by
  induction as generalizing s with
  | nil => exact h
  | cons a as ih =>
    have hnext := hf a s h
    unfold untilError
    rcases hs : f a s with ⟨_ | _, s'⟩ <;> rw [hs] at hnext
    · exact hnext
    · exact ih hnext

theorem Underway.applyRelocations (h : Underway s₀ k s) (kallsyms : CStr → ℕ) (img : Image)
    (secAddr : ℕ → ℕ) (hr : Reserved s₀ k) :
    Underway s₀ k (applyRelocations kallsyms img secAddr k s).2 := by
  refine untilError_inv (fun i s hs => ?_) _ h
  unfold applySection
  dsimp only
  split
  · exact hs
  split
  · exact hs
  split
  · exact hs
  split
  · exact hs
  split
  · exact hs
  · exact untilError_inv (fun r s hs => hs.applyRelocation hr _ _ r) _ hs

theorem Underway.loadInto (h : Underway s₀ k s) (kallsyms : CStr → ℕ) (env : Env) (img : Image)
    (l : Layout) (hr : Reserved s₀ k) :
    Underway s₀ k (loadInto kallsyms env img l k s).2 := by
  unfold Module.loadInto
  split
  · exact h
  dsimp only
  have hreloc := h.applyRelocations kallsyms img (copySections img (s.slot k).base l) hr
  rcases ha : Module.applyRelocations kallsyms img (copySections img (s.slot k).base l) k s with
    ⟨_ | _, s'⟩ <;> rw [ha] at hreloc
  · exact hreloc
  have hexports : Underway s₀ k
      (buildExports kallsyms env img (copySections img (s.slot k).base l) k s').2 := by
    have hstate := hreloc.state hr
    unfold buildExports
    split
    · exact hreloc
    · exact hreloc
    split
    · exact hreloc
    split
    · exact hreloc
    refine ⟨hreloc.wired.revise rfl rfl rfl ?_ ?_ (.inr (hreloc.users hr))
      (hreloc.wired.source k), hreloc.same.set rfl rfl⟩
    · rw [hstate]
      decide
    · show (s'.slot k).state ≠ _
      rw [hstate]
      decide
  dsimp only
  rcases hb : buildExports kallsyms env img (copySections img (s.slot k).base l) k s' with
    ⟨_ | _, s''⟩ <;> rw [hb] at hexports
  · exact hexports
  · exact hexports

end

structure Settled (s : Modules) : Prop extends Wired s where
  settled : ∀ c, (s.slot c).state = .empty ∨ (s.slot c).state = .live

def Stays (s s' : Modules) (c : Slot) : Prop :=
  (s'.slot c).state = .live ∧ (s'.slot c).load = (s.slot c).load

theorem reserveModule_spec {name : CStr} {size : ℕ} (h : Settled s)
    (hr : reserveModule s name size = .ok (k, s')) :
    Wired s' ∧ Reserved s' k ∧ (s.slot k).state = .empty ∧ ∀ c ≠ k, s'.slot c = s.slot c := by
  unfold reserveModule at hr
  split at hr
  · cases hr
  split at hr
  · cases hr
  next j hj =>
  dsimp only at hr
  split at hr
  · cases hr
  cases hr
  have hempty : (s.slot k).state = .empty := by
    have := List.find?_some hj
    exact of_decide_eq_true this
  have hne : ∀ c ≠ k, ∀ m, (s.set k m).slot c = s.slot c := fun c hc m => set_ne _ _ hc
  refine ⟨h.toWired.reserve hempty rfl rfl rfl rfl, ⟨?_, ?_, ?_⟩, hempty, ?_⟩
  · show ((s.set k _).slot k).state = _
    rw [set_self]
  · intro c hc
    show ((s.set k _).slot c).state = _ ∨ ((s.set k _).slot c).state = _
    rw [hne c hc]
    exact h.settled c
  · intro c hc hlive
    change ((s.set k _).slot c).state = _ at hlive
    show ((s.set k _).slot c).load < ((s.set k _).slot k).load
    rw [hne c hc] at hlive ⊢
    rw [set_self]
    exact h.fresh c (by rw [hlive]; decide)
  · intro c hc
    exact hne c hc _

theorem moduleLoadImage_settled {kallsyms : CStr → ℕ} {env : Env} {img : Image} (h : Settled s) :
    Settled (moduleLoadImage kallsyms env img s).2 ∧
      ∀ c, (s.slot c).state = .live → Stays s (moduleLoadImage kallsyms env img s).2 c := by
  have hsame : Settled s ∧ ∀ c, (s.slot c).state = .live → Stays s s c :=
    ⟨h, fun c hc => ⟨hc, rfl⟩⟩
  unfold moduleLoadImage
  split
  · exact hsame
  split
  · exact hsame
  split
  · exact hsame
  next l size _ =>
  split
  · exact hsame
  next k s₀ hres =>
  obtain ⟨hwired, hr, hempty, hrest⟩ := reserveModule_spec h hres
  have hstart : Underway s₀ k s₀ := ⟨hwired, rfl, fun c => ⟨rfl, rfl⟩⟩
  have hload := hstart.loadInto kallsyms env img l hr
  have hne : ∀ c, (s.slot c).state = .live → c ≠ k := by
    intro c hc he
    rw [he, hempty] at hc
    cases hc
  rcases hl : loadInto kallsyms env img l k s₀ with ⟨_ | _, s₁⟩ <;> rw [hl] at hload
  · have hslot := fun {c} (hc : c ≠ k) => slot_abandonModule s₁ hc
    refine ⟨⟨hload.wired.abandonModule (hload.users hr), fun c => ?_⟩, fun c hc => ?_⟩
    · show ((abandonModule s₁ k).slot c).state = _ ∨ ((abandonModule s₁ k).slot c).state = _
      by_cases hck : c = k
      · left
        rw [hck, abandonModule, set_self]
      · rw [hslot hck]
        show (s₁.slot c).state = _ ∨ (s₁.slot c).state = _
        rw [(hload.same.2 c).1]
        exact hr.others c hck
    · show ((abandonModule s₁ k).slot c).state = _ ∧ ((abandonModule s₁ k).slot c).load = _
      rw [hslot (hne c hc), ← hrest c (hne c hc)]
      exact ⟨(hload.same.2 c).1.trans (by rw [hrest c (hne c hc), hc]), (hload.same.2 c).2⟩
  · refine ⟨⟨hload.wired.revise rfl rfl rfl ?_ nofun (.inl rfl) (hload.wired.source k),
      fun c => ?_⟩, fun c hc => ?_⟩
    · rw [hload.state hr]
      decide
    · by_cases hck : c = k
      · right
        rw [hck, set_self]
      · rw [set_ne _ _ hck, (hload.same.2 c).1]
        exact hr.others c hck
    · show (slot (s₁.set k _) c).state = _ ∧ (slot (s₁.set k _) c).load = _
      rw [set_ne _ _ (hne c hc), ← hrest c (hne c hc)]
      exact ⟨(hload.same.2 c).1.trans (by rw [hrest c (hne c hc), hc]), (hload.same.2 c).2⟩

theorem sysInitModule_settled (kallsyms : CStr → ℕ) (args : LoadArgs) (h : Settled s) :
    Settled (sysInitModule kallsyms args s).2 ∧
      ∀ c, (s.slot c).state = .live → Stays s (sysInitModule kallsyms args s).2 c := by
  have hsame : Settled s ∧ ∀ c, (s.slot c).state = .live → Stays s s c :=
    ⟨h, fun c hc => ⟨hc, rfl⟩⟩
  unfold sysInitModule
  split
  · exact hsame
  split
  · exact hsame
  split
  · exact hsame
  split
  · exact hsame
  · exact moduleLoadImage_settled h

theorem sysDeleteModule_settled (args : DeleteArgs) (h : Settled s) :
    Settled (sysDeleteModule args s).2 ∧
      ∀ c, (s.slot c).state = .live → ¬ Stays s (sysDeleteModule args s).2 c → s.users c = 0 := by
  have hsame : Settled s ∧ ∀ c, (s.slot c).state = .live → ¬ Stays s s c → s.users c = 0 :=
    ⟨h, fun c hc hgone => absurd ⟨hc, rfl⟩ hgone⟩
  unfold sysDeleteModule
  split
  · exact hsame
  split
  · exact hsame
  split
  · exact hsame
  split
  · exact hsame
  next k hk =>
  split
  · exact hsame
  next husers =>
  have hlive : (s.slot k).state = .live := by
    have hfound := List.find?_some hk
    rw [Bool.and_eq_true, decide_eq_true_eq] at hfound
    exact hfound.1
  have hzero : s.users k = 0 := not_not.mp husers
  -- nobody depends on the module, so its state is free to change
  have hw : Wired (s.set k { s.slot k with state := .unloading }) :=
    h.toWired.revise rfl rfl rfl (by rw [hlive]; decide) nofun (.inr hzero) (h.source k)
  have hzero' : (s.set k { s.slot k with state := .unloading }).users k = 0 := by
    rw [users_set, update_self]
    exact hzero
  have hslot : ∀ c ≠ k, ((abandonModule (s.set k { s.slot k with state := .unloading }) k).slot
      c).state = (s.slot c).state ∧ ((abandonModule (s.set k { s.slot k with state := .unloading })
        k).slot c).load = (s.slot c).load := by
    intro c hc
    rw [slot_abandonModule _ hc, set_ne _ _ hc]
    exact ⟨rfl, rfl⟩
  refine ⟨⟨hw.abandonModule hzero', fun c => ?_⟩, fun c hc hgone => ?_⟩
  · by_cases hck : c = k
    · left
      rw [hck]
      exact congrArg LoadedModule.state (set_self ..)
    · exact (h.settled c).imp (hslot c hck).1.trans (hslot c hck).1.trans
  · by_cases hck : c = k
    · rw [hck]
      exact hzero
    · exact absurd ⟨(hslot c hck).1.trans hc, (hslot c hck).2⟩ hgone

end

def DependsOn (s : Modules) (c p : Slot) : Prop := (s.slot c).state = .live ∧ p ∈ (s.slot c).deps

instance (s : Modules) (c p : Slot) : Decidable (DependsOn s c p) :=
  inferInstanceAs (Decidable (_ ∧ _))

structure Sound (s : Modules) : Prop where
  users : ∀ p, (s.slot p).state = .live →
    (s.slot p).users = (Finset.univ.filter (DependsOn s · p)).card
  live : ∀ c p, DependsOn s c p → (s.slot p).state = .live
  acyclic : ∀ c, ¬ Relation.TransGen (DependsOn s) c c
  -- what a relocated word was made from is still the same load of a live module
  words : ∀ c, (s.slot c).state = .live → ∀ w ∈ (s.slot c).words, ∀ p g, w.source = some (p, g) →
    (s.slot p).state = .live ∧ (s.slot p).load = g

def UnloadsUnused (kallsyms : CStr → ℕ) (s : Modules) (call : ModuleCall) : Prop :=
  ∀ c, (s.slot c).state = .live → ¬ Stays s (moduleStep kallsyms s call) c → (s.slot c).users = 0

theorem Settled.sound {s : Modules} (h : Settled s) : Sound s := by
  have hall : ∀ c p, DependsOn s c p ↔ p ∈ s.deps c := by
    intro c p
    refine ⟨fun hc => hc.2, fun hp => ⟨(h.settled c).resolve_left fun hempty => ?_, hp⟩⟩
    rw [(h.empty c hempty).1] at hp
    exact absurd hp not_mem_nil
  refine ⟨fun p _ => ?_, fun c p hc => h.live c p hc.2, ?_, fun c _ w hw p g hs => ?_⟩
  · refine (h.counted.users p).trans (congrArg Finset.card ?_)
    ext c
    rw [mem_dependants, Finset.mem_filter, hall]
    exact (and_iff_right (Finset.mem_univ c)).symm
  · exact acyclic_of_rank fun c p hc => h.order c p hc.2
  · obtain ⟨hp, hg⟩ := h.source c w hw p g hs
    exact ⟨h.live c p hp, hg⟩

theorem settled_boot : Settled boot where
  counted := ⟨fun _ => nodup_nil, fun p => by
    have hnone : dependants boot.deps p = ∅ :=
      Finset.filter_false_of_mem fun c _ => not_mem_nil
    rw [hnone]
    rfl⟩
  live := fun _ _ hp => absurd hp not_mem_nil
  order := fun _ _ hp => absurd hp not_mem_nil
  empty := fun _ _ => ⟨rfl, rfl⟩
  fresh := fun _ hc => absurd rfl hc
  source := fun _ _ hw => absurd hw not_mem_nil
  settled := fun _ => .inl rfl

theorem Settled.step {s : Modules} (h : Settled s) (kallsyms : CStr → ℕ) (call : ModuleCall) :
    Settled (moduleStep kallsyms s call) ∧ UnloadsUnused kallsyms s call := by
  cases call with
  | load args =>
    obtain ⟨hs, hstays⟩ := sysInitModule_settled kallsyms args h
    exact ⟨hs, fun c hc hgone => absurd (hstays c hc) hgone⟩
  | delete args => exact sysDeleteModule_settled args h

/-- In every run of loads and unloads the dependencies are sound between calls, and no call
unloads a module that others use. -/
theorem module_dependencies_sound (kallsyms : CStr → ℕ) (calls : List ModuleCall) :
    Always (moduleStep kallsyms) Sound boot calls ∧
      Along (moduleStep kallsyms) (UnloadsUnused kallsyms) boot calls := by
  have halong : Along (moduleStep kallsyms) (fun _ _ => True) boot calls :=
    fun _ _ _ => trivial
  have hall : Always (moduleStep kallsyms) Settled boot calls :=
    halong.always settled_boot fun s call hs _ => (hs.step kallsyms call).1
  refine ⟨fun pre hpre => (hall pre hpre).sound, fun pre call hpre => ?_⟩
  have hpre' : pre <+: calls := (prefix_append pre [call]).trans hpre
  exact ((hall pre hpre').step kallsyms call).2

end Kyronix.Module
