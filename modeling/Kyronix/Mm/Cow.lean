import Kyronix.Lib.Run
import Kyronix.Mm.CowCalls

/-! Runs of processes over copy-on-write memory: no other process changes what a process reads in
its private mappings, as long as no call makes a frame writable that is held more than once. -/
namespace Kyronix.Mm

open Lib Word Lib.Run Mem Option

variable {n : ℕ}

inductive MemOp where
  | spawn (base bump : UInt64)
  | fork (child : ℕ)
  | exit
  | store (addr : UInt64) (b : UInt8) (near : Bool)
  | mmap (addr length prot flags : UInt64) (file : UInt64 → UInt8)
  | munmap (addr len : UInt64)
  | mprotect (addr len prot : UInt64)
  | brk (addr : UInt64)
  | mremap (oldAddr oldSz newSz flags newAddr : UInt64)

/-- A call, with the answers that the frame allocator and the page tables will give it. -/
structure MemCall where
  pid : ℕ
  op : MemOp
  supply : List ℕ
  tables : List Bool

variable (s : Mem n) (p : ℕ)

def spawn (base bump : UInt64) : Mem n :=
  if s.alive p then s
  else
    let s := vmmSpaceNew s p
    { s with
      brk := Function.update s.brk p base
      brkBase := Function.update s.brkBase p base
      mmapBump := Function.update s.mmapBump p bump }

def Mem.run : MemOp → Mem n
  | .spawn base bump => spawn s p base bump
  | .fork child => sysFork s p child
  | .exit => vmmSpaceFree s p
  | .store addr b near => userStore s p addr b near
  | .mmap addr length prot flags file => (sysMmap s p addr length prot flags file).2
  | .munmap addr len => (sysMunmap s p addr len).2
  | .mprotect addr len prot => (sysMprotect s p addr len prot).2
  | .brk addr => (sysBrk s p addr).2
  | .mremap oldAddr oldSz newSz flags newAddr =>
    (sysMremap s p oldAddr oldSz newSz flags newAddr).2

def MemOp.isSpawn : MemOp → Bool
  | .spawn .. => true
  | _ => false

def Mem.load (c : MemCall) : Mem n :=
  { s with supply := c.supply, tables := c.tables }

-- only a process that exists makes calls
def memStep (c : MemCall) : Mem n :=
  if c.op.isSpawn || s.alive c.pid then (s.load c).run c.pid c.op else s

def Mem.readPage (va : UInt64) : Option (UInt64 → UInt8) :=
  (s.entry (p, va)).map fun e => s.page e.frame

/-- No frame that is held more than once is writable through a private mapping. -/
def NoSharedWrite : Prop :=
  ∀ p va e, s.entry (p, va) = some e → s.Private p va → e.flags.write = true →
    pmmRefCount s e.frame ≤ 1

/-- The call changes what no other process reads in a private mapping of its own. -/
def Undisturbed (c : MemCall) : Prop :=
  ∀ q va, q ≠ c.pid → s.alive q = true → s.Private q va →
    (memStep s c).readPage q va = s.readPage q va

instance (s : Mem n) (p : ℕ) (va : UInt64) : Decidable (s.Private p va) :=
  decidable_of_iff ((lookup (s.vmas p) va).any (fun k => !k.shared) = true) (by
    rw [any_eq_true]
    simp [Mem.Private])

def Mem.refsAt (va : UInt64) : ℕ :=
  (vmmVirtToPhys s p va).elim 0 (pmmRefCount s)

/-- Where a new mapping would go, no page is present without a mapping and held more than once. -/
def FreeOfStrays (len : UInt64) (pick : Except ℤ (UInt64 × Mem n)) : Prop :=
  ∀ start ∈ pick.toOption.map Prod.fst, ∀ va ∈ (s.pt p).pages, InRange start len va →
    vmaPageMapped (s.vmas p) va = true ∨ s.refsAt p va ≤ 1

/-- The operation gives no private mapping the right to write a frame held more than once. -/
def Careful : MemOp → Prop
  | .mprotect addr len prot =>
    prot &&& protWrite ≠ 0 → ∀ va ∈ (s.pt p).pages, InRange addr (pageUp len) va →
      kindAt s p va = true ∨ s.refsAt p va ≤ 1
  | .brk addr =>
    addr ≠ 0 → ∀ va ∈ (s.pt p).pages, s.brkBase p ≤ va → va < pageUp (min addr (s.brk p)) →
      s.Private p va ∨ s.refsAt p va ≤ 1
  | .mmap addr length _ flags _ =>
    FreeOfStrays s p (pageUp length) (mmapPickAddr s p addr (pageUp length) flags)
  | .mremap _ _ newSz flags newAddr =>
    FreeOfStrays s p (pageUp newSz) (mremapPickAddr s p (pageUp newSz) flags newAddr)
  | _ => True

def CarefulCall (c : MemCall) : Prop := Careful (s.load c) c.pid c.op

section

variable {s : Mem n} {p f : ℕ} {va : UInt64}

theorem refsAt_eq (h : Ok s) (hx : s.holds (p, va) = some f) : s.refsAt p va = s.refs f := by
  have hphys : vmmVirtToPhys s p va = some f := hx
  rw [refsAt, hphys, elim_some, pmmRefCount_eq h]

theorem mem_pages_of_holds (hx : s.holds (p, va) = some f) : va ∈ (s.pt p).pages := by
  obtain ⟨e, he, -⟩ := entry_of_holds hx
  exact ((s.pt p).mem_pages va).mpr (isSome_of_mem he)

theorem FreeOfStrays.clear {len start : UInt64} {s' : Mem n} {pick : Except ℤ (UInt64 × Mem n)}
    (h : FreeOfStrays s p len pick) (hok : Ok s) (hpick : pick = .ok (start, s')) :
    Clear s p start len := by
  intro va hin hnone f hx
  rw [hpick] at h
  rcases h start rfl va (mem_pages_of_holds hx) hin with hmapped | hone
  · rw [vmaPageMapped, hnone] at hmapped
    cases hmapped
  · rwa [refsAt_eq hok hx] at hone

theorem Shares.of_dead {child : ℕ} {s' : Mem n} (h : Shares {p, child} s s')
    (hdead : s.alive child = false) : Shares {p} s s' := by
  refine ⟨h.ok, fun q hq hlive => h.quiet q ?_ hlive⟩
  rintro (rfl | rfl)
  · exact hq rfl
  · rw [hdead] at hlive
    cases hlive

theorem spawn_shares (h : Ok s) (base bump : UInt64) : Shares {p} s (spawn s p base bump) := by
  rw [spawn]
  split
  · exact (Safe.refl h).shares
  · rename_i hdead
    have hnew := (vmmSpaceNew_shares h (Set.mem_singleton p) (Bool.eq_false_iff.mpr hdead)).1
    exact hnew.trans (setBreaks_shares hnew.ok ..)

theorem fork_shares (h : Ok s) (hlive : s.alive p = true) (child : ℕ) :
    Shares {p} s (sysFork s p child) := by
  by_cases hchild : s.alive child = true
  · rw [sysFork, if_pos hchild]
    exact (Safe.refl h).shares
  · exact (sysFork_shares h (Set.mem_insert ..) (Set.mem_insert_of_mem _ (Set.mem_singleton child))
      hlive).of_dead
      (Bool.eq_false_iff.mpr hchild)

theorem run_shares (h : Ok s) (hlive : s.alive p = true) {op : MemOp} (hc : Careful s p op) :
    Shares {p} s (s.run p op) := by
  have hp : p ∈ ({p} : Set ℕ) := Set.mem_singleton p
  cases op with
  | spawn base bump => exact spawn_shares h base bump
  | fork child => exact fork_shares h hlive child
  | exit => exact vmmSpaceFree_shares h hp
  | store addr b near => exact (userStore_safe h hp hlive addr b near).shares
  | mmap addr length prot flags file =>
    exact (sysMmap_safe h hp hlive file fun va s' hpick => hc.clear h hpick).shares
  | munmap addr len => exact (sysMunmap_safe h hp addr len).shares
  | mprotect addr len prot =>
    obtain ⟨kind, hinv⟩ := h
    refine (sysMprotect_safe hinv hp fun hw va hin f hx => ?_).shares
    rcases hc hw va (mem_pages_of_holds hx) hin with hshared | hone
    · left
      obtain ⟨k, hk, hsh⟩ := any_eq_true _ _ |>.mp hshared
      obtain ⟨e, he, rfl⟩ := entry_of_holds hx
      rw [hinv.kinds p va e k he hk, hsh]
    · right
      rwa [refsAt_eq ⟨kind, hinv⟩ hx] at hone
  | brk addr =>
    refine (sysBrk_safe h hp hlive fun h₀ va hlo hhi f hx => ?_).shares
    rw [← refsAt_eq h hx]
    exact hc h₀ va (mem_pages_of_holds hx) hlo hhi
  | mremap oldAddr oldSz newSz flags newAddr =>
    exact (sysMremap_safe h hp hlive fun va s' hpick => hc.clear h hpick).shares

theorem load_shares (h : Ok s) (c : MemCall) : Shares {c.pid} s (s.load c) := by
  have hs : SameSpaces s (s.load c) := ⟨rfl, rfl, rfl, rfl⟩
  exact (h.safe_of_same hs rfl rfl rfl).shares

theorem memStep_shares (h : Ok s) {c : MemCall} (hc : CarefulCall s c) :
    Shares {c.pid} s (memStep s c) := by
  rw [memStep]
  have hload := load_shares h c
  split
  · rename_i hmay
    rcases Bool.or_eq_true_iff.mp hmay with hspawn | hlive
    · obtain ⟨pid, op, supply, tables⟩ := c
      cases op with
      | spawn base bump => exact hload.trans (spawn_shares hload.ok base bump)
      | _ => cases hspawn
    · exact hload.trans (run_shares hload.ok hlive hc)
  · exact (Safe.refl h).shares

theorem Shares.undisturbed {c : MemCall} (h : Shares {c.pid} s (memStep s c)) :
    Undisturbed s c := by
  intro q va hq hlive hpriv
  obtain ⟨-, hentry, -, hpage⟩ := h.quiet q hq hlive
  rw [readPage, readPage, hentry va]
  cases hx : s.entry (q, va) with
  | none => rfl
  | some e =>
    rw [map_some, map_some, hpage va e.frame hpriv (holds_of_entry hx)]

theorem Ok.noSharedWrite (h : Ok s) : NoSharedWrite s := by
  intro p va e hx ⟨k, hk, hshared⟩ hw
  rw [pmmRefCount_eq h]
  obtain ⟨kind, hinv⟩ := h
  have hkind := (hinv.kinds p va e k hx hk).trans hshared
  exact hinv.cow (p, va) e hx hw hkind

theorem ok_boot : Ok (boot : Mem n) := by
  have hnone : ∀ x, (boot : Mem n).entry x = none := fun _ => rfl
  have hheld : ∀ x f, (boot : Mem n).holds x ≠ some f := by
    intro x f hx
    obtain ⟨e, he, -⟩ := entry_of_holds hx
    exact some_ne_none e (he.symm.trans (hnone x))
  refine ⟨fun _ => false, fun _ => separate_vmaReset, fun _ _ _ => rfl, ?_, ?_, ?_, fun _ _ => rfl,
    ?_, ?_⟩
  · exact fun x e hx => absurd (holds_of_entry hx) (hheld x e.frame)
  · exact fun x f hx => absurd hx (hheld x f)
  · intro f xs hxs
    rcases xs.eq_empty_or_nonempty with rfl | ⟨x, hx⟩
    · exact Nat.zero_le _
    · exact absurd (hxs x hx) (hheld x f)
  · exact fun p va e k hx => absurd (holds_of_entry hx) (hheld (p, va) e.frame)
  · exact fun x e hx => absurd (holds_of_entry hx) (hheld x e.frame)

end

/-- In a run of careful calls, private memory is copy-on-write: no other process ever changes it. -/
theorem private_memory_isolated (calls : List MemCall)
    (h : Along memStep CarefulCall (boot : Mem vmmVmaMax) calls) :
    Always memStep NoSharedWrite (boot : Mem vmmVmaMax) calls ∧
      Along memStep Undisturbed (boot : Mem vmmVmaMax) calls := by
  have hok : Always memStep Ok (boot : Mem vmmVmaMax) calls :=
    h.always ok_boot fun s c hs hc => (memStep_shares hs hc).ok
  refine ⟨fun pre hpre => (hok pre hpre).noSharedWrite, fun pre c hpre => ?_⟩
  have hs := hok pre ((List.prefix_append pre [c]).trans hpre)
  exact (memStep_shares hs (h pre c hpre)).undisturbed

/-- In such a run a frame is allocated as long as a page maps it, and unless it is mapped only once
it is counted for each of them. -/
theorem mapped_frames_counted (calls : List MemCall)
    (h : Along memStep CarefulCall (boot : Mem vmmVmaMax) calls) :
    Always memStep (fun s => ∀ f (xs : Finset (ℕ × UInt64)), xs.Nonempty →
      (∀ x ∈ xs, s.holds x = some f) → s.used f = true ∧ xs.card ≤ max 1 (pmmRefCount s f))
      (boot : Mem vmmVmaMax) calls := by
  intro pre hpre f xs hne hxs
  have hok : Ok _ := h.always ok_boot (fun _ _ hs hc => (memStep_shares hs hc).ok) pre hpre
  rw [pmmRefCount_eq hok]
  obtain ⟨kind, hinv⟩ := hok
  obtain ⟨x, hx⟩ := hne
  exact ⟨hinv.used x f (hxs x hx), hinv.counted f xs hxs⟩

def spawned : List MemCall := [⟨1, .spawn 0x10000000 0x40000000, [], []⟩]

def mapped : List MemCall := spawned ++ [⟨1, .mmap 0 4096 3 0x22 fun _ => 0, [7], []⟩]

def forked : List MemCall := mapped ++ [⟨1, .fork 2, [], []⟩]

def remade : List MemCall := forked ++ [⟨1, .mprotect 0x40000000 4096 3, [], []⟩]

def storeByte : MemCall := ⟨1, .store 0x40000000 0xaa false, [8], []⟩

set_option maxRecDepth 100000 in
/-- After `mprotect` both processes have one frame, writable in process 1: its stores show in 2. -/
theorem mprotect_breaks_isolation :
    ¬ Always memStep NoSharedWrite (boot : Mem vmmVmaMax) remade ∧
      ¬ Along memStep Undisturbed (boot : Mem vmmVmaMax) (remade ++ [storeByte]) := by
  constructor
  · intro h
    have hbad := h remade List.prefix_rfl 1 0x40000000 ⟨7, vmmUdata⟩ (by decide +kernel)
      (by decide +kernel) (by decide)
    revert hbad
    decide +kernel
  · intro h
    have hbad := h remade storeByte List.prefix_rfl 2 0x40000000 (by decide) (by decide +kernel)
      (by decide +kernel)
    have hbyte := congrArg (Option.map (· 0)) hbad
    revert hbyte
    decide +kernel

theorem freeOfStrays_of_no_page {s : Mem n} {p : ℕ} (h : (s.pt p).pages = []) (len : UInt64)
    (pick : Except ℤ (UInt64 × Mem n)) : FreeOfStrays s p len pick := by
  intro start _ va hva
  rw [h] at hva
  cases hva

theorem careful_of_one_page {s : Mem n} {p : ℕ} (va : UInt64) (hpages : (s.pt p).pages = [va])
    (hone : s.refsAt p va ≤ 1) (addr len prot : UInt64) :
    Careful s p (.mprotect addr len prot) := by
  intro _ vb hvb _
  rw [hpages, List.mem_singleton] at hvb
  rw [hvb]
  exact Or.inr hone

set_option maxRecDepth 100000 in
theorem private_memory_isolated_copied :
    Always memStep NoSharedWrite (boot : Mem vmmVmaMax)
        (forked ++ [storeByte] ++ [⟨1, .mprotect 0x40000000 4096 3, [], []⟩]) ∧
      Along memStep Undisturbed (boot : Mem vmmVmaMax)
        (forked ++ [storeByte] ++ [⟨1, .mprotect 0x40000000 4096 3, [], []⟩]) := by
  apply private_memory_isolated
  have hspawn : Along memStep CarefulCall (boot : Mem vmmVmaMax) spawned :=
    along_concat.mpr ⟨along_nil, True.intro⟩
  have hmmap : Along memStep CarefulCall (boot : Mem vmmVmaMax) mapped :=
    along_concat.mpr ⟨hspawn, freeOfStrays_of_no_page (by decide +kernel) _ _⟩
  have hfork : Along memStep CarefulCall (boot : Mem vmmVmaMax) forked :=
    along_concat.mpr ⟨hmmap, True.intro⟩
  refine along_concat.mpr ⟨along_concat.mpr ⟨hfork, True.intro⟩, ?_⟩
  exact careful_of_one_page 0x40000000 (by decide +kernel) (by decide +kernel) _ _ _

set_option maxRecDepth 100000 in
theorem mapped_frames_counted_forked :
    pmmRefCount (exec memStep (boot : Mem vmmVmaMax) forked) 7 = 2 ∧
      (exec memStep (boot : Mem vmmVmaMax) forked).used 7 = true := by
  refine ⟨by decide +kernel, (mapped_frames_counted forked ?_ forked List.prefix_rfl 7
    {(1, 0x40000000)} ⟨_, Finset.mem_singleton_self _⟩ ?_).1⟩
  · exact along_concat.mpr ⟨along_concat.mpr ⟨along_concat.mpr ⟨along_nil, True.intro⟩,
      freeOfStrays_of_no_page (by decide +kernel) _ _⟩, True.intro⟩
  · simp only [Finset.mem_singleton]
    rintro x rfl
    decide +kernel

end Kyronix.Mm
