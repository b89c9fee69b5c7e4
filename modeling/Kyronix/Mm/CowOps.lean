import Kyronix.Mm.PageLoops

/-! What each call does to the spaces of other processes, and that it keeps the invariant. -/
namespace Kyronix.Mm

open Lib Word Lib.Intervals Lib.Refs Function

variable {n : ℕ}

def Ok (s : Mem n) : Prop := ∃ kind, Inv s kind

def Mem.Private (s : Mem n) (p : ℕ) (va : UInt64) : Prop :=
  ∃ k, lookup (s.vmas p) va = some k ∧ k.shared = false

/-- The processes outside `A` keep their entries and mappings, and what their private pages hold. -/
def Quiet (A : Set ℕ) (s s' : Mem n) : Prop :=
  ∀ q, q ∉ A → s.alive q = true → s'.alive q = true ∧ (∀ va, s'.entry (q, va) = s.entry (q, va)) ∧
    s'.vmas q = s.vmas q ∧
    ∀ va f, s.Private q va → s.holds (q, va) = some f → s'.page f = s.page f

structure Safe (A : Set ℕ) (s s' : Mem n) : Prop where
  ok : Ok s'
  quiet : Quiet A s s'
  noWorse : ∀ x f, s'.holds x = some f → s'.refs f ≤ 1 ∨ (s.holds x = some f ∧ s'.refs f ≤ s.refs f)
  alive : s'.alive = s.alive
  brkBase : s'.brkBase = s.brkBase

open Safe

section

variable {A : Set ℕ} {s s' s'' : Mem n} {kind : ℕ → Bool} {p f : ℕ} {va : UInt64} {e : Pte}

theorem Quiet.trans (h : Quiet A s s') (h' : Quiet A s' s'') : Quiet A s s'' := by
  intro q hq hlive
  obtain ⟨hlive', hentry, hvmas, hpage⟩ := h q hq hlive
  obtain ⟨hlive'', hentry', hvmas', hpage'⟩ := h' q hq hlive'
  refine ⟨hlive'', fun va => (hentry' va).trans (hentry va), hvmas'.trans hvmas,
    fun va f hpriv hx => ?_⟩
  have hpriv' : s'.Private q va := by
    rwa [Mem.Private, hvmas]
  have hx' : s'.holds (q, va) = some f := by
    rw [← hx]
    exact congrArg (Option.map Pte.frame) (hentry va)
  rw [hpage' va f hpriv' hx', hpage va f hpriv hx]

theorem Safe.refl (h : Ok s) : Safe A s s :=
  ⟨h, fun _ _ hq => ⟨hq, fun _ => rfl, rfl, fun _ _ _ _ => rfl⟩, fun _ _ hx => Or.inr ⟨hx, le_rfl⟩,
    rfl, rfl⟩

theorem Safe.trans (h : Safe A s s') (h' : Safe A s' s'') : Safe A s s'' := by
  refine ⟨h'.ok, h.quiet.trans h'.quiet, fun x f hx => ?_, h'.alive.trans h.alive,
    h'.brkBase.trans h.brkBase⟩
  rcases h'.noWorse x f hx with hone | ⟨hx', hle'⟩
  · exact Or.inl hone
  · rcases h.noWorse x f hx' with hone | ⟨hx, hle⟩
    · exact Or.inl (hle'.trans hone)
    · exact Or.inr ⟨hx, hle'.trans hle⟩

theorem safe_of_frames (h : Ok s') (hs : SameSpaces s s')
    (hpage : ∀ q va f, q ∉ A → s.Private q va → s.holds (q, va) = some f → s'.page f = s.page f)
    (hrefs : ∀ x f, s.holds x = some f → s'.refs f ≤ s.refs f) : Safe A s s' := by
  refine ⟨h, fun q hqA hq => ⟨?_, fun va => ?_, ?_, fun va f => hpage q va f hqA⟩,
    fun x f hx => ?_, hs.alive, hs.brkBase⟩
  · rwa [hs.alive]
  · rw [hs.entry]
  · rw [hs.vmas]
  · rw [hs.holds] at hx
    exact Or.inr ⟨hx, hrefs x f hx⟩

theorem Ok.safe_of_same (h : Ok s) (hs : SameSpaces s s') (hused : s'.used = s.used)
    (hrefs : s'.refs = s.refs) (hpage : s'.page = s.page) : Safe A s s' := by
  obtain ⟨kind, h⟩ := h
  exact safe_of_frames ⟨kind, h.congr hs hused hrefs⟩ hs (fun _ _ _ _ _ _ => by rw [hpage])
    fun _ _ _ => by rw [hrefs]

theorem Loose.not_held (h : Loose s f) {x : ℕ × UInt64} {g : ℕ} (hx : s.holds x = some g) :
    g ≠ f := by
  rintro rfl
  exact h.free x hx

theorem pmmAlloc_safe (h : Ok s) {r : Option ℕ} (ha : pmmAlloc s = (r, s')) :
    Safe A s s' ∧ SameSpaces s s' ∧ ∀ f, r = some f → Loose s' f := by
  cases r with
  | none =>
    obtain ⟨rest, rfl⟩ := pmmAlloc_none ha
    have hs : SameSpaces s { s with supply := rest } := ⟨rfl, rfl, rfl, rfl⟩
    exact ⟨h.safe_of_same hs rfl rfl rfl, hs, fun f hf => nomatch hf⟩
  | some f =>
    obtain ⟨kind, h⟩ := h
    obtain ⟨hok, hloose⟩ := h.alloc ha
    obtain ⟨hs, hpage, -, -, -, hother⟩ := pmmAlloc_some ha
    refine ⟨safe_of_frames ⟨kind, hok⟩ hs (fun _ _ _ _ _ _ => by rw [hpage]) fun x g hx => ?_, hs,
      fun g hg => Option.some.inj hg ▸ hloose⟩
    rw [← hs.holds] at hx
    exact (hother g (hloose.not_held hx)).le

theorem sameSpaces_fill (data : UInt64 → UInt8) : SameSpaces s (s.fill f data) :=
  ⟨rfl, rfl, rfl, rfl⟩

theorem fill_loose_safe (h : Ok s) (hf : Loose s f) (data : UInt64 → UInt8) :
    Safe A s (s.fill f data) ∧ Loose (s.fill f data) f := by
  obtain ⟨kind, h⟩ := h
  refine ⟨safe_of_frames ⟨kind, h.congr (sameSpaces_fill data) rfl rfl⟩ (sameSpaces_fill data)
    (fun _ _ g _ _ hx => ?_) fun _ _ _ => le_rfl, hf.used, hf.free, hf.once⟩
  exact update_of_ne (hf.not_held hx) ..

theorem fill_held_safe (h : Ok s) (hp : p ∈ A) (hx : s.holds (p, va) = some f)
    (hone : s.refs f ≤ 1) (data : UInt64 → UInt8) : Safe A s (s.fill f data) := by
  obtain ⟨kind, h⟩ := h
  refine safe_of_frames ⟨kind, h.congr (sameSpaces_fill data) rfl rfl⟩ (sameSpaces_fill data)
    (fun q vb g hq _ hx' => ?_) fun _ _ _ => le_rfl
  have hgf : g ≠ f := by
    rintro rfl
    have heq := h.counted.unique hone hx' hx
    cases heq
    exact hq hp
  exact update_of_ne hgf ..

theorem pmmAllocZeroed_safe (h : Ok s) {r : Option ℕ} (ha : pmmAllocZeroed s = (r, s')) :
    Safe A s s' ∧ ∀ f, r = some f → Loose s' f := by
  rw [pmmAllocZeroed] at ha
  rcases hr : pmmAlloc s with ⟨g, s₁⟩
  rw [hr] at ha
  obtain ⟨hsafe, -, hloose⟩ := pmmAlloc_safe (A := A) h hr
  cases g with
  | none =>
    cases ha
    exact ⟨hsafe, hloose⟩
  | some g =>
    cases ha
    obtain ⟨hfill, hg⟩ := fill_loose_safe (A := A) hsafe.ok (hloose g rfl) fun _ => 0
    exact ⟨hsafe.trans hfill, fun f hf => Option.some.inj hf ▸ hg⟩

theorem free_loose_safe (h : Ok s) (hf : Loose s f) : Safe A s (pmmFree s f) := by
  obtain ⟨kind, h⟩ := h
  obtain ⟨hs, hpage, -, -⟩ := pmmFree_spec h.beyond f
  exact safe_of_frames ⟨kind, h.freeLoose hf⟩ hs (fun _ _ _ _ _ _ => by rw [hpage]) fun _ g _ =>
    pmmFree_refs_le h.beyond f g

theorem quiet_of_entry {o : Option Pte} (hp : p ∈ A)
    (hentry : s'.entry = update s.entry (p, va) o) (hvmas : s'.vmas = s.vmas)
    (halive : s'.alive = s.alive) (hpage : s'.page = s.page) : Quiet A s s' := by
  intro q hq hlive
  refine ⟨?_, fun vb => ?_, ?_, fun _ _ _ _ => by rw [hpage]⟩
  · rwa [halive]
  · rw [hentry, update_of_ne]
    rintro ⟨⟩
    exact hq hp
  · rw [hvmas]

theorem setPte_safe (h : Ok s) (hp : p ∈ A) (hlive : s.alive p = true) (hva : va.toNat % 4096 = 0)
    (hf : Loose s f) (flags : PteFlags) : Safe A s (s.setPte p va ⟨f, flags⟩) := by
  obtain ⟨kind, h⟩ := h
  refine ⟨⟨_, h.setPte hlive hva hf⟩, quiet_of_entry hp entry_setPte rfl rfl rfl, ?_, rfl, rfl⟩
  rw [holds_setPte]
  exact forall_update_some (fun g hg => Or.inl (Option.some.inj hg ▸ hf.once))
    fun x g _ hx => Or.inr ⟨hx, le_rfl⟩

variable {flags : PteFlags}

theorem reflag_safe (h : Inv s kind) (hp : p ∈ A) (hx : s.entry (p, va) = some e)
    (hw : flags.write = true → kind e.frame = true ∨ s.refs e.frame ≤ 1) :
    Safe A s (s.setPte p va { e with flags := flags }) := by
  refine ⟨⟨_, h.reflag hx hw⟩, quiet_of_entry hp entry_setPte rfl rfl rfl, ?_, rfl, rfl⟩
  rw [holds_reflag hx]
  exact fun x g hx => Or.inr ⟨hx, le_rfl⟩

theorem unmap_safe (h : Ok s) (hp : p ∈ A) (va : UInt64) : Safe A s (vmmUnmap s p va) := by
  obtain ⟨kind, h⟩ := h
  refine ⟨⟨kind, h.unmap p va⟩, quiet_of_entry hp entry_vmmUnmap rfl rfl rfl, ?_, rfl, rfl⟩
  rw [holds_vmmUnmap]
  exact forall_update_some (fun _ h => nomatch h) fun x g _ hx => Or.inr ⟨hx, le_rfl⟩

theorem unmapFree_safe (h : Ok s) (hp : p ∈ A) (hx : s.entry (p, va) = some e) :
    Safe A s (pmmFree (vmmUnmap s p va) e.frame) ∧
      SameSpaces (vmmUnmap s p va) (pmmFree (vmmUnmap s p va) e.frame) := by
  have hu := unmap_safe h hp va
  obtain ⟨kind, h⟩ := h
  obtain ⟨hs, hpage, -, -⟩ := pmmFree_spec (h.unmap p va).beyond e.frame
  have hok : Ok (pmmFree (vmmUnmap s p va) e.frame) := ⟨kind, h.unmapFree hx⟩
  refine ⟨hu.trans (safe_of_frames hok hs (fun _ _ _ _ _ _ => by rw [hpage]) fun _ g _ => ?_), hs⟩
  exact pmmFree_refs_le (h.unmap p va).beyond _ g

theorem vmmMap_safe (h : Ok s) (hp : p ∈ A) (hlive : s.alive p = true)
    (hva : va.toNat % 4096 = 0) (hf : Loose s f) {ok : Bool}
    (hm : vmmMap s p va f flags = (ok, s')) :
    Safe A s s' ∧ (ok = false → Loose s' f) ∧
      (ok = true → s'.holds (p, va) = some f ∧ s'.refs f ≤ 1) := by
  have hs : ∀ tables, Safe A s { s with tables := tables } := fun _ =>
    h.safe_of_same ⟨rfl, rfl, rfl, rfl⟩ rfl rfl rfl
  cases ok with
  | false =>
    obtain ⟨tables, rfl⟩ := vmmMap_false hm
    exact ⟨hs tables, fun _ => ⟨hf.used, hf.free, hf.once⟩, nofun⟩
  | true =>
    obtain ⟨tables, rfl⟩ := vmmMap_true hm
    have hf₁ : Loose { s with tables := tables } f := ⟨hf.used, hf.free, hf.once⟩
    refine ⟨(hs tables).trans (setPte_safe (hs tables).ok hp hlive hva hf₁ flags), nofun,
      fun _ => ⟨?_, hf.once⟩⟩
    rw [holds_setPte, update_self]

theorem mapNew_safe (h : Ok s) (hp : p ∈ A) (hlive : s.alive p = true)
    (hva : va.toNat % 4096 = 0) (ha : pmmAllocZeroed s = (some f, s')) {ok : Bool}
    (hm : vmmMap s' p va f flags = (ok, s'')) :
    Safe A s s'' ∧ (ok = false → Safe A s (pmmFree s'' f)) ∧
      (ok = true → s''.holds (p, va) = some f ∧ s''.refs f ≤ 1) := by
  obtain ⟨hsafe, hloose⟩ := pmmAllocZeroed_safe (A := A) h ha
  have hlive' : s'.alive p = true := by rwa [hsafe.alive]
  obtain ⟨hmap, hfail, hok⟩ := vmmMap_safe hsafe.ok hp hlive' hva (hloose f rfl) hm
  have hsafe' := hsafe.trans hmap
  exact ⟨hsafe', fun h => hsafe'.trans (free_loose_safe hsafe'.ok (hfail h)), hok⟩

theorem freePage_safe (hp : p ∈ A) (h : Ok s) (va : UInt64) : Safe A s (freePage p s va) := by
  rw [freePage, vmmVirtToPhys]
  cases hx : (s.pt p).pte va with
  | none => exact refl h
  | some e => exact (unmapFree_safe h hp hx).1

theorem unmapOwnedPage_safe (hp : p ∈ A) (h : Ok s) (va : UInt64) :
    Safe A s (unmapOwnedPage p s va) := by
  have hu := unmap_safe h hp va
  rw [unmapOwnedPage, vmaPageMapped, vmaPageOwned, vmmVirtToPhys]
  cases lookup (s.vmas p) va with
  | none => cases (s.pt p).pte va <;> exact refl h
  | some k =>
    cases hx : (s.pt p).pte va with
    | none => exact hu
    | some e =>
      cases hown : k.freeOnUnmap with
      | false => simpa [hown] using hu
      | true => simpa [hown] using (unmapFree_safe h hp hx).1

theorem foldl_safe {g : Mem n → UInt64 → Mem n} (hg : ∀ {s}, Ok s → ∀ va, Safe A s (g s va))
    (h : Ok s) (l : List UInt64) : Safe A s (l.foldl g s) := by
  induction l generalizing s with
  | nil => exact refl h
  | cons va l ih =>
    have hstep := hg h va
    exact hstep.trans (ih hstep.ok)

section

variable (hp : p ∈ A)
include hp

theorem unmapOwnedPages_safe (h : Ok s) (addr len : UInt64) :
    Safe A s (unmapOwnedPages s p addr len) :=
  foldl_safe (unmapOwnedPage_safe hp) h _

theorem quiet_setVmas (r : ℤ × VmaTable n) : Quiet A s (s.setVmas p r).2 := by
  intro q hq hlive
  have hqp : q ≠ p := by
    rintro rfl
    exact hq hp
  exact ⟨hlive, fun _ => rfl, vmas_setVmas_of_ne s hqp r, fun _ _ _ _ => rfl⟩

theorem setVmas_safe {r : ℤ × VmaTable n} (h : Ok (s.setVmas p r).2) : Safe A s (s.setVmas p r).2 :=
  ⟨h, quiet_setVmas hp r, fun _ _ hx => Or.inr ⟨hx, le_rfl⟩, rfl, rfl⟩

theorem remove_safe (h : Ok s) (start len : UInt64) :
    Safe A s (s.setVmas p (vmaRemove (s.vmas p) start len)).2 := by
  obtain ⟨kind, h⟩ := h
  exact setVmas_safe hp ⟨kind, h.below (remove_refines (h.separate p) start len).separate
    (vmaRemove_below (h.separate p) start len)⟩

theorem removeOverlaps_safe (h : Ok s) (start len : UInt64) :
    Safe A s (s.setVmas p (vmaRemoveOverlaps (s.vmas p) start len)).2 := by
  obtain ⟨kind, h⟩ := h
  exact setVmas_safe hp ⟨kind, h.below (removeOverlaps_refines (h.separate p) start len).separate
    (vmaRemoveOverlaps_below (h.separate p) start len)⟩

def Clear (s : Mem n) (p : ℕ) (start len : UInt64) : Prop :=
  ∀ va, InRange start len va → lookup (s.vmas p) va = none → ∀ f, s.holds (p, va) = some f →
    s.refs f ≤ 1

theorem add_safe (h : Ok s) {start len : UInt64} (hclear : Clear s p start len)
    (prot mapFlags : UInt32) (free : Bool) :
    Safe A s (s.setVmas p (vmaAdd (s.vmas p) start len prot mapFlags free)).2 := by
  obtain ⟨kind, h⟩ := h
  refine setVmas_safe hp (h.addVma fun va hva hk e hx => Or.inl ?_)
  exact hclear va hva hk _ (holds_of_entry hx)

theorem rollbackNewMapping_safe (h : Ok s) (addr mappedLen vmaLen : UInt64) :
    Safe A s (rollbackNewMapping s p addr mappedLen vmaLen) := by
  rw [rollbackNewMapping]
  have hu := unmapOwnedPages_safe hp h addr mappedLen
  split
  · exact hu.trans (remove_safe hp hu.ok addr vmaLen)
  · exact remove_safe hp h addr vmaLen

end

theorem toNat_pageDown (x : UInt64) : (pageDown x).toNat = x.toNat / 4096 * 4096 := by
  have h := x.toNat_lt
  have hle := Nat.div_mul_le_self x.toNat 4096
  rw [pageDown, UInt64.toNat_mul, UInt64.toNat_div]
  exact Nat.mod_eq_of_lt (hle.trans_lt h)

theorem pageDown_aligned (x : UInt64) : (pageDown x).toNat % 4096 = 0 := by
  rw [toNat_pageDown]
  exact Nat.mul_mod_left ..

theorem pageRange_aligned {addr : UInt64} (h : addr.toNat % 4096 = 0) (len : UInt64) :
    ∀ va ∈ pageRange addr len, va.toNat % 4096 = 0 := by
  intro va hva
  obtain ⟨i, -, rfl⟩ := List.mem_map.mp hva
  rw [UInt64.toNat_add, UInt64.toNat_ofNat']
  omega

theorem mem_pageRange {addr len : UInt64} (h : addr.toNat % 4096 = 0) (hl : len.toNat % 4096 = 0)
    (hva : va.toNat % 4096 = 0) (hin : InRange addr len va) : va ∈ pageRange addr len := by
  obtain ⟨hlo, hhi⟩ := hin
  have hlt := va.toNat_lt
  refine List.mem_map.mpr ⟨(va.toNat - addr.toNat) / 4096, List.mem_range.mpr (by omega), ?_⟩
  apply UInt64.toNat_inj.mp
  rw [UInt64.toNat_add, UInt64.toNat_ofNat']
  omega

variable {l : List UInt64}

theorem mapPages_safe (hp : p ∈ A) (addr len : UInt64) (flags : PteFlags)
    (data : Mem n → UInt64 → UInt64 → UInt8) (hl : ∀ va ∈ l, va.toNat % 4096 = 0)
    (h : Ok s) (hlive : s.alive p = true) :
    Safe A s (mapPages p addr len flags data l s).2 := by
  induction l generalizing s with
  | nil => exact refl h
  | cons va l ih =>
    obtain ⟨hva, hl⟩ := List.forall_mem_cons.mp hl
    rw [mapPages]
    rcases ha : pmmAllocZeroed s with ⟨_ | f, s₁⟩
    · have hsafe := (pmmAllocZeroed_safe (A := A) h ha).1
      exact hsafe.trans (rollbackNewMapping_safe hp hsafe.ok ..)
    dsimp only
    rcases hm : vmmMap s₁ p va f flags with ⟨_ | _, s₂⟩
    · have hfree := (mapNew_safe h hp hlive hva ha hm).2.1 rfl
      exact hfree.trans (rollbackNewMapping_safe hp hfree.ok ..)
    · obtain ⟨hmap, -, hdone⟩ := mapNew_safe h hp hlive hva ha hm
      obtain ⟨hx, hone⟩ := hdone rfl
      have hfill := hmap.trans (fill_held_safe hmap.ok hp hx hone (data s₂ va))
      have hlive' : (s₂.fill f (data s₂ va)).alive p = true := by rwa [hfill.alive]
      exact hfill.trans (ih hl hfill.ok hlive')

theorem brkPages_safe (hp : p ∈ A) {old : UInt64}
    (hl : ∀ va ∈ l, va.toNat % 4096 = 0) (h : Ok s) (hlive : s.alive p = true) {ok : Bool}
    (hb : brkPages p old l s = (ok, s')) :
    Safe A s s' ∧ (ok = true → ∀ va ∈ l, ∀ f, s'.holds (p, va) = some f → s'.refs f ≤ 1) := by
  induction l generalizing s with
  | nil =>
    cases hb
    exact ⟨refl h, fun _ va hva => nomatch hva⟩
  | cons va l ih =>
    obtain ⟨hva, hl⟩ := List.forall_mem_cons.mp hl
    rw [brkPages] at hb
    rcases ha : pmmAllocZeroed s with ⟨_ | f, s₁⟩ <;> rw [ha] at hb <;> dsimp only at hb
    · cases hb
      have hsafe := (pmmAllocZeroed_safe (A := A) h ha).1
      exact ⟨hsafe.trans (foldl_safe (freePage_safe hp) hsafe.ok _), fun h => nomatch h⟩
    rcases hm : vmmMap s₁ p va f vmmUdata with ⟨_ | _, s₂⟩ <;> rw [hm] at hb
    · cases hb
      have hfree := (mapNew_safe h hp hlive hva ha hm).2.1 rfl
      exact ⟨hfree.trans (foldl_safe (freePage_safe hp) hfree.ok _), fun h => nomatch h⟩
    · obtain ⟨hmap, -, hdone⟩ := mapNew_safe h hp hlive hva ha hm
      obtain ⟨hx, hone⟩ := hdone rfl
      obtain ⟨hrest, hall⟩ := ih hl hmap.ok (by rwa [hmap.alive]) hb
      refine ⟨hmap.trans hrest, fun hok => List.forall_mem_cons.mpr ⟨fun g hg => ?_, hall hok⟩⟩
      rcases hrest.noWorse _ g hg with hle | ⟨hx', hle⟩
      · exact hle
      · rw [hx'] at hx
        exact hle.trans (Option.some.inj hx ▸ hone)

theorem protectPages_safe (hp : p ∈ A) {tracked : Bool}
    (h : Inv s kind) (hw : flags.write = true → ∀ va ∈ l, ∀ f, s.holds (p, va) = some f →
      kind f = true ∨ s.refs f ≤ 1) :
    Safe A s (protectPages p tracked flags l s).2 := by
  induction l generalizing s with
  | nil => exact refl ⟨kind, h⟩
  | cons va l ih =>
    have hrest : flags.write = true → ∀ vb ∈ l, ∀ f, s.holds (p, vb) = some f →
        kind f = true ∨ s.refs f ≤ 1 :=
      fun hf => (List.forall_mem_cons.mp (hw hf)).2
    rw [protectPages, vmmVirtToPhys, vmmProtect]
    cases hx : (s.pt p).pte va with
    | none =>
      cases tracked with
      | true => exact ih h hrest
      | false => exact refl ⟨kind, h⟩
    | some e =>
      have hwe : flags.write = true → kind e.frame = true ∨ s.refs e.frame ≤ 1 :=
        fun hf => (List.forall_mem_cons.mp (hw hf)).1 _ (holds_of_entry hx)
      refine (reflag_safe h hp hx hwe).trans (ih (h.reflag hx hwe) ?_)
      rw [holds_reflag hx]
      exact hrest

end

end Kyronix.Mm
