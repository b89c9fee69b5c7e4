import Kyronix.Lib.Run

/-! Pseudo-terminals and the keyboard's event device (`devfs.c`, `input.c`): what open and close
callbacks keep by hand, against the descriptors. -/
namespace Kyronix.Fs.DevOpen

open Lib.Run Function List

/-- The descriptors of a node, the path lookups that hold it, and its `refcnt`. -/
structure Node where
  files : ℕ
  lookups : ℕ
  refcnt : ℕ
deriving DecidableEq

open Node

namespace Node

def opened (n : Node) : Node := { n with files := n.files + 1, refcnt := n.refcnt + 1 }

def closed (n : Node) : Node := { n with files := n.files - 1, refcnt := n.refcnt - 1 }

def lookup (n : Node) : Node := { n with lookups := n.lookups + 1, refcnt := n.refcnt + 1 }

def release (n : Node) : Node :=
  if n.lookups = 0 then n else { n with lookups := n.lookups - 1, refcnt := n.refcnt - 1 }

end Node

def ptyMax : ℕ := 16

structure PtyPipes where
  id : ℕ
  m2sRead : ℕ
  m2sWrite : ℕ
  s2mRead : ℕ
  s2mWrite : ℕ
deriving DecidableEq

/-- A slot of `g_ptys`. Slave nodes are numbered as they are made; `path` is the one at
`/dev/pts/N`, `slave` tells whether the slot points to it, and `freed` are the pairs of pipes that
were freed. -/
structure Pty where
  used : Bool
  masterOpen : Bool
  slaveOpen : Bool
  slave : Bool
  pipes : Option PtyPipes
  nextPipes : ℕ
  freed : List ℕ
  master : Node
  slaves : ℕ → Node
  nextSlave : ℕ
  path : Option ℕ

namespace Pty

def boot : Pty :=
  ⟨false, false, false, false, none, 0, [], ⟨0, 0, 0⟩, fun _ => ⟨0, 0, 0⟩, 0, none⟩

variable (p : Pty)

def setSlave (g : ℕ) (n : Node) : Pty := { p with slaves := update p.slaves g n }

def unlink (allowed : Bool) : Pty := if allowed then { p with path := none } else p

def freePipes : Pty :=
  { p with
    freed := (p.pipes.map PtyPipes.id).toList ++ p.freed
    pipes := none
    used := false }

def dropSlave (allowed : Bool) : Pty :=
  if p.slave then { p.unlink allowed with slave := false } else p

def ptymClose (allowed : Bool) : Pty :=
  if p.used = false then p
  else
    let p := { p with
      masterOpen := false
      pipes := p.pipes.map fun q : PtyPipes => { q with m2sWrite := 0, s2mRead := 0 } }
    let p := p.dropSlave allowed
    if p.slaveOpen then p else p.freePipes

def ptysClose : Pty :=
  if p.used = false ∨ p.slaveOpen = false then p
  else
    let p := { p with
      slaveOpen := false
      pipes := p.pipes.map fun q : PtyPipes => { q with s2mWrite := 0, m2sRead := 0 } }
    if p.masterOpen then p else p.freePipes

def closeMaster (allowed : Bool) : Pty :=
  if p.master.files = 0 then p
  else
    let p := if p.master.refcnt ≤ 1 then p.ptymClose allowed else p
    { p with master := p.master.closed }

def closeSlave (g : ℕ) : Pty :=
  if (p.slaves g).files = 0 then p
  else
    let p := if (p.slaves g).refcnt ≤ 1 then p.ptysClose else p
    p.setSlave g (p.slaves g).closed

/-- `fd` tells whether there is a descriptor. -/
def ptysOpen (fd : Bool) : Pty :=
  match p.path with
  | none => p
  | some g =>
    if p.used = false ∨ p.masterOpen = false ∨ fd = false then p
    else { (p.setSlave g (p.slaves g).opened) with slaveOpen := true }

def createSlave (made : Bool) : Pty :=
  if p.path.isNone ∧ made then
    { (p.setSlave p.nextSlave ⟨0, 0, 0⟩) with
      slave := true
      nextSlave := p.nextSlave + 1
      path := some p.nextSlave }
  else { p with slave := false }

def ptmxOpen (allowed made fd : Bool) : Pty :=
  let p := { p with
    pipes := some ⟨p.nextPipes, 1, 1, 1, 1⟩
    nextPipes := p.nextPipes + 1
    used := true
    masterOpen := true
    slaveOpen := false }
  let p := (p.unlink allowed).createSlave made
  { p with master := if fd then ⟨1, 0, 1⟩ else ⟨0, 0, 0⟩ }

end Pty

structure Dev where
  ptys : ℕ → Pty
  kbd : Node
  kbdOpen : ℤ

open Dev

def Dev.boot : Dev := ⟨fun _ => Pty.boot, ⟨0, 0, 0⟩, 0⟩

inductive Act
  /-- Is there memory for the pipes, may the old slave be unlinked, is there memory for a new one,
  and is there a descriptor. -/
  | openPtmx (pipes allowed made fd : Bool)
  | openPts (i : ℕ) (fd : Bool)
  | openKbd (fd : Bool)
  /-- `dup`, or the copy of a descriptor that `fork` makes. -/
  | dupMaster (i : ℕ)
  | dupSlave (i g : ℕ)
  | dupKbd
  | closeMaster (i : ℕ) (allowed : Bool)
  | closeSlave (i g : ℕ)
  | closeKbd
  | lookupPts (i : ℕ)
  | lookupKbd
  | releasePts (i g : ℕ)
  | releaseKbd

namespace Dev

def setPty (s : Dev) (i : ℕ) (p : Pty) : Dev := { s with ptys := update s.ptys i p }

def freeSlot (s : Dev) : Option ℕ := (List.range ptyMax).find? fun i => !(s.ptys i).used

def ptmxOpen (s : Dev) (pipes allowed made fd : Bool) : Dev :=
  match s.freeSlot with
  | none => s
  | some i => if pipes = false then s else s.setPty i ((s.ptys i).ptmxOpen allowed made fd)

def evdevOpen (s : Dev) (fd : Bool) : Dev :=
  let s := { s with kbdOpen := s.kbdOpen + 1 }
  if fd then { s with kbd := s.kbd.opened } else { s with kbdOpen := s.kbdOpen - 1 }

def closeKbd (s : Dev) : Dev :=
  if s.kbd.files = 0 then s
  else
    let s := if s.kbd.refcnt ≤ 1 then { s with kbdOpen := s.kbdOpen - 1 } else s
    { s with kbd := s.kbd.closed }

def step (s : Dev) : Act → Dev
  | .openPtmx pipes allowed made fd => s.ptmxOpen pipes allowed made fd
  | .openPts i fd => s.setPty i ((s.ptys i).ptysOpen fd)
  | .openKbd fd => s.evdevOpen fd
  | .dupMaster i =>
    if (s.ptys i).master.files = 0 then s
    else s.setPty i { s.ptys i with master := (s.ptys i).master.opened }
  | .dupSlave i g =>
    if ((s.ptys i).slaves g).files = 0 then s
    else s.setPty i ((s.ptys i).setSlave g ((s.ptys i).slaves g).opened)
  | .dupKbd => if s.kbd.files = 0 then s else { s with kbd := s.kbd.opened }
  | .closeMaster i allowed => s.setPty i ((s.ptys i).closeMaster allowed)
  | .closeSlave i g => s.setPty i ((s.ptys i).closeSlave g)
  | .closeKbd => s.closeKbd
  | .lookupPts i =>
    match (s.ptys i).path with
    | none => s
    | some g => s.setPty i ((s.ptys i).setSlave g ((s.ptys i).slaves g).lookup)
  | .lookupKbd => { s with kbd := s.kbd.lookup }
  | .releasePts i g => s.setPty i ((s.ptys i).setSlave g ((s.ptys i).slaves g).release)
  | .releaseKbd => { s with kbd := s.kbd.release }

end Dev

/-- The flags of a slot are those of its descriptors, its pipes have both sides while both ends are
open, and a pair of pipes is freed once, when no descriptor is left. -/
structure Pty.Follows (p : Pty) : Prop where
  master : p.masterOpen = true ↔ 0 < p.master.files
  slave : p.slaveOpen = true ↔ ∃ g, 0 < (p.slaves g).files
  joined : p.masterOpen = true → p.slaveOpen = true → ∃ q, p.pipes = some q ∧
    0 < q.m2sRead ∧ 0 < q.m2sWrite ∧ 0 < q.s2mRead ∧ 0 < q.s2mWrite
  used : p.used = true ↔ 0 < p.master.files ∨ ∃ g, 0 < (p.slaves g).files
  once : p.freed.Nodup
  freed : ∀ k < p.nextPipes, k ∈ p.freed ↔ ¬(p.used = true ∧ ∃ q, p.pipes = some q ∧ q.id = k)

structure Dev.Follows (s : Dev) : Prop where
  ptys : ∀ i, (s.ptys i).Follows
  kbd : 0 < s.kbdOpen ↔ 0 < s.kbd.files

/-- There is a descriptor for each master, a slave was not closed before, `event0` is closed when it
is opened, and no lookup holds a node at its last close. -/
def Dev.Calm (s : Dev) : Act → Prop
  | .openPtmx _ _ _ fd => fd = true
  | .openPts i _ => ∀ q, (s.ptys i).pipes = some q → 0 < q.s2mWrite ∧ 0 < q.m2sRead
  | .openKbd fd => s.kbd.files = 0 ∨ fd = false
  | .closeSlave i g => ((s.ptys i).slaves g).files = 1 → ((s.ptys i).slaves g).lookups = 0
  | .closeKbd => s.kbd.files = 1 → s.kbd.lookups = 0
  | _ => True

namespace Pty

variable {p : Pty} {g : ℕ}

structure Booked (p : Pty) : Prop where
  pipes : p.used = true ↔ ∃ q, p.pipes = some q
  once : p.freed.Nodup
  bound : ∀ k ∈ p.freed, k < p.nextPipes
  current : ∀ q, p.pipes = some q → q.id < p.nextPipes ∧ q.id ∉ p.freed
  freed : ∀ k < p.nextPipes, k ∈ p.freed ∨ ∃ q, p.pipes = some q ∧ q.id = k

/-- All slave descriptors are of one node, that at the path while the master is open. Counts are
exact, and each open end has its side of the pipes. -/
structure Inv (p : Pty) : Prop where
  book : Booked p
  master : p.masterOpen = true ↔ 0 < p.master.files
  slave : p.slaveOpen = true ↔ ∃ g, 0 < (p.slaves g).files
  masterRefs : p.master.refcnt = p.master.files
  slaveRefs : ∀ g, (p.slaves g).refcnt = (p.slaves g).files + (p.slaves g).lookups
  same : ∀ g g', 0 < (p.slaves g).files → 0 < (p.slaves g').files → g = g'
  path : p.masterOpen = true → ∀ g g', p.path = some g → 0 < (p.slaves g').files → g' = g
  used : p.used = true ↔ p.masterOpen = true ∨ p.slaveOpen = true
  masterSide : p.masterOpen = true → ∀ q, p.pipes = some q → 0 < q.m2sWrite ∧ 0 < q.s2mRead
  slaveSide : p.slaveOpen = true → ∀ q, p.pipes = some q → 0 < q.s2mWrite ∧ 0 < q.m2sRead

theorem Inv.follows (h : Inv p) : p.Follows where
  master := h.master
  slave := h.slave
  joined hm hs := by
    obtain ⟨q, hq⟩ := h.book.pipes.mp (h.used.mpr (.inl hm))
    obtain ⟨hw, hr⟩ := h.masterSide hm q hq
    obtain ⟨hw', hr'⟩ := h.slaveSide hs q hq
    exact ⟨q, hq, hr', hw, hr, hw'⟩
  used := by rw [h.used, h.master, h.slave]
  once := h.book.once
  freed k hk := by
    constructor
    · rintro hfreed ⟨-, q, hq, rfl⟩
      exact (h.book.current q hq).2 hfreed
    · intro hnot
      refine (h.book.freed k hk).resolve_right ?_
      rintro ⟨q, hq, hid⟩
      exact hnot ⟨h.book.pipes.mpr ⟨q, hq⟩, q, hq, hid⟩

theorem inv_boot : Inv boot where
  book := ⟨by simp [boot], nodup_nil, by simp [boot], by simp [boot], by simp [boot]⟩
  master := by simp [boot]
  slave := by simp [boot]
  masterRefs := rfl
  slaveRefs _ := rfl
  same _ _ h := absurd h (by simp [boot])
  path h := absurd h (by simp [boot])
  used := by simp [boot]
  masterSide h := absurd h (by simp [boot])
  slaveSide h := absurd h (by simp [boot])

theorem Booked.congr {p' : Pty} (h : Booked p) (hused : p'.used = p.used)
    (hpipes : p'.pipes = p.pipes) (hnext : p'.nextPipes = p.nextPipes)
    (hfreed : p'.freed = p.freed) : Booked p' := by
  refine ⟨?_, ?_, ?_, ?_, ?_⟩
  · rw [hused, hpipes]
    exact h.pipes
  · rw [hfreed]
    exact h.once
  · rw [hfreed, hnext]
    exact h.bound
  · rw [hfreed, hnext, hpipes]
    exact h.current
  · rw [hfreed, hnext, hpipes]
    exact h.freed

theorem Booked.map (h : Booked p) {f : PtyPipes → PtyPipes} (hf : ∀ q, (f q).id = q.id) :
    Booked { p with pipes := p.pipes.map f } := by
  have hmap : ∀ k, (∃ q, p.pipes.map f = some q ∧ q.id = k) ↔ ∃ q, p.pipes = some q ∧ q.id = k := by
    intro k
    cases p.pipes with
    | none => simp
    | some q => simp [hf]
  refine ⟨?_, h.once, h.bound, fun q hq => ?_, fun k hk => ?_⟩
  · rw [h.pipes]
    cases p.pipes <;> simp
  · obtain ⟨q', hq', hid⟩ := (hmap q.id).mp ⟨q, hq, rfl⟩
    rw [← hid]
    exact h.current q' hq'
  · exact (h.freed k hk).imp_right (hmap k).mpr

theorem Booked.freePipes (h : Booked p) : Booked p.freePipes := by
  unfold Pty.freePipes
  cases hq : p.pipes with
  | none =>
    refine ⟨by simp, h.once, h.bound, fun q hq => (nomatch hq), fun k hk => ?_⟩
    rcases h.freed k hk with hin | ⟨q, hq', -⟩
    · exact .inl hin
    · rw [hq] at hq'
      cases hq'
  | some q =>
    obtain ⟨hlt, hnot⟩ := h.current q hq
    refine ⟨by simp, ?_, fun k hk => ?_, fun q hq => (nomatch hq), fun k hk => .inl ?_⟩
    · exact nodup_cons.mpr ⟨hnot, h.once⟩
    · rcases mem_cons.mp hk with rfl | hk
      · exact hlt
      · exact h.bound k hk
    · rcases h.freed k hk with hin | ⟨q', hq', rfl⟩
      · exact mem_cons_of_mem _ hin
      · rw [hq] at hq'
        cases hq'
        exact mem_cons_self

theorem slaves_setSlave (p : Pty) (g g' : ℕ) (n : Node) :
    (p.setSlave g n).slaves g' = if g' = g then n else p.slaves g' := by
  by_cases h : g' = g
  · rw [if_pos h, h]
    exact update_self ..
  · rw [if_neg h]
    exact update_of_ne h ..

section

variable (h : Inv p)
include h

theorem Inv.setSlave {n : Node} (hrefs : n.refcnt = n.files + n.lookups)
    (hfiles : 0 < n.files ↔ 0 < (p.slaves g).files) : Inv (p.setSlave g n) := by
  have hiff : ∀ g', 0 < ((p.setSlave g n).slaves g').files ↔ 0 < (p.slaves g').files := by
    intro g'
    rw [slaves_setSlave]
    split
    · next heq => rw [heq, hfiles]
    · rfl
  refine ⟨h.book.congr rfl rfl rfl rfl, h.master, ?_, h.masterRefs, fun g' => ?_, ?_, ?_, h.used,
    h.masterSide, h.slaveSide⟩
  · simp only [hiff]
    exact h.slave
  · rw [slaves_setSlave]
    split
    · exact hrefs
    · exact h.slaveRefs g'
  · simp only [hiff]
    exact h.same
  · simp only [hiff]
    exact h.path

theorem Inv.dupSlave (hopen : (p.slaves g).files ≠ 0) : Inv (p.setSlave g (p.slaves g).opened) := by
  have hrefs := h.slaveRefs g
  refine h.setSlave ?_ ?_
  · dsimp only [opened]
    omega
  · dsimp only [opened]
    omega

theorem Inv.lookup : Inv (p.setSlave g (p.slaves g).lookup) := by
  refine h.setSlave ?_ Iff.rfl
  dsimp only [Node.lookup]
  rw [h.slaveRefs g, Nat.add_assoc]

theorem Inv.release : Inv (p.setSlave g (p.slaves g).release) := by
  have hrefs := h.slaveRefs g
  unfold Node.release
  split
  · exact h.setSlave hrefs Iff.rfl
  · refine h.setSlave ?_ Iff.rfl
    dsimp only
    omega

theorem Inv.dupMaster (hopen : p.master.files ≠ 0) : Inv { p with master := p.master.opened } := by
  refine ⟨h.book.congr rfl rfl rfl rfl, ?_, h.slave, congrArg (· + 1) h.masterRefs, h.slaveRefs,
    h.same, h.path, h.used, h.masterSide, h.slaveSide⟩
  rw [h.master]
  dsimp only [opened]
  omega

theorem Inv.ptysOpen (fd : Bool)
    (hside : ∀ q, p.pipes = some q → 0 < q.s2mWrite ∧ 0 < q.m2sRead) : Inv (p.ptysOpen fd) := by
  unfold Pty.ptysOpen
  split
  · exact h
  next g hpath =>
  split
  · exact h
  next hcan =>
  have hmaster : p.masterOpen = true := by
    by_contra hno
    exact hcan (.inr (.inl (by simpa using hno)))
  have hrefs := h.slaveRefs g
  have hcur : ∀ g', 0 < (p.slaves g').files → g' = g :=
    fun g' => h.path hmaster g g' hpath
  have hfiles : ∀ g', 0 < ((p.setSlave g (p.slaves g).opened).slaves g').files ↔ g' = g := by
    intro g'
    rw [slaves_setSlave]
    split
    · next heq => simp [heq, opened]
    · next hne => exact iff_of_false (fun hpos => hne (hcur g' hpos)) hne
  refine ⟨h.book.congr rfl rfl rfl rfl, h.master, ?_, h.masterRefs, fun g' => ?_, ?_, ?_, ?_,
    h.masterSide, fun _ => hside⟩
  · exact iff_of_true rfl ⟨g, (hfiles g).mpr rfl⟩
  · dsimp only
    rw [slaves_setSlave]
    split
    · dsimp only [opened]
      omega
    · exact h.slaveRefs g'
  · intro g₁ g₂ h₁ h₂
    rw [(hfiles g₁).mp h₁, (hfiles g₂).mp h₂]
  · intro _ g₁ g₂ h₁ h₂
    have h₁ : p.path = some g₁ := h₁
    rw [hpath] at h₁
    cases h₁
    exact (hfiles g₂).mp h₂
  · exact iff_of_true (h.used.mpr (.inl hmaster)) (.inl hmaster)

theorem Inv.lastSlave {p' : Pty} (hlast : (p.slaves g).files = 1)
    (hslaves : p'.slaves = p.slaves) (hmaster : p'.master = p.master)
    (hmo : p'.masterOpen = p.masterOpen) (hso : p'.slaveOpen = false) (hbook : Booked p')
    (hused : p'.used = p'.masterOpen)
    (hside : p'.masterOpen = true → ∀ q, p'.pipes = some q → 0 < q.m2sWrite ∧ 0 < q.s2mRead) :
    Inv (p'.setSlave g (p'.slaves g).closed) := by
  have hnone : ∀ g', ¬0 < ((p'.setSlave g (p'.slaves g).closed).slaves g').files := by
    intro g'
    rw [slaves_setSlave, hslaves]
    split
    · dsimp only [closed]
      omega
    · next hne => exact fun hpos => hne (h.same g' g hpos (by omega))
  refine ⟨hbook.congr rfl rfl rfl rfl, ?_, ?_, ?_, fun g' => ?_, fun g' _ hpos => ?_,
    fun _ _ g' _ hpos => ?_, ?_, hside, fun hs => ?_⟩
  · change p'.masterOpen = true ↔ 0 < p'.master.files
    rw [hmo, hmaster]
    exact h.master
  · exact iff_of_false (by simp [Pty.setSlave, hso]) fun ⟨g', hpos⟩ => hnone g' hpos
  · change p'.master.refcnt = p'.master.files
    rw [hmaster]
    exact h.masterRefs
  · rw [slaves_setSlave, hslaves]
    have hrefs := h.slaveRefs g
    split
    · dsimp only [closed]
      omega
    · exact h.slaveRefs g'
  · exact absurd hpos (hnone g')
  · exact absurd hpos (hnone g')
  · change p'.used = true ↔ p'.masterOpen = true ∨ p'.slaveOpen = true
    rw [hused, hso]
    simp
  · change p'.slaveOpen = true at hs
    rw [hso] at hs
    cases hs

theorem Inv.closeSlave (hcalm : (p.slaves g).files = 1 → (p.slaves g).lookups = 0) :
    Inv (p.closeSlave g) := by
  have hrefs := h.slaveRefs g
  unfold Pty.closeSlave
  split
  · exact h
  next hopen =>
  have hso : p.slaveOpen = true := h.slave.mpr ⟨g, by omega⟩
  have hu : p.used = true := h.used.mpr (.inr hso)
  split
  · next hlast =>
    have hbook := h.book.map (f := fun q => { q with s2mWrite := 0, m2sRead := 0 }) fun _ => rfl
    unfold ptysClose
    rw [if_neg (by simp [hso, hu])]
    dsimp only
    split
    · next hmo =>
      refine h.lastSlave (by omega) rfl rfl rfl rfl (hbook.congr rfl rfl rfl rfl)
        (hu.trans hmo.symm) fun _ q hq => ?_
      obtain ⟨q', hq', rfl⟩ := Option.map_eq_some_iff.mp hq
      exact h.masterSide hmo q' hq'
    · next hmo =>
      refine h.lastSlave (by omega) rfl rfl rfl rfl ?_ ?_ fun _ q hq => (nomatch hq)
      · exact Booked.freePipes (hbook.congr rfl rfl rfl rfl)
      · exact (Bool.eq_false_of_not_eq_true hmo).symm
  · next hmore =>
    refine h.setSlave ?_ ?_
    · dsimp only [closed]
      omega
    · dsimp only [closed]
      omega

theorem Inv.lastMaster {p' : Pty} (hlast : p.master.files = 1)
    (hslaves : p'.slaves = p.slaves) (hmaster : p'.master = p.master)
    (hmo : p'.masterOpen = false) (hso : p'.slaveOpen = p.slaveOpen) (hbook : Booked p')
    (hused : p'.used = p'.slaveOpen)
    (hside : p'.slaveOpen = true → ∀ q, p'.pipes = some q → 0 < q.s2mWrite ∧ 0 < q.m2sRead) :
    Inv { p' with master := p'.master.closed } := by
  have hrefs := h.masterRefs
  refine ⟨hbook.congr rfl rfl rfl rfl, ?_, ?_, ?_, ?_, ?_, fun hm => ?_, ?_, fun hm => ?_, hside⟩
  · dsimp only [closed]
    rw [hmo, hmaster, hlast]
    simp
  · dsimp only
    rw [hso, hslaves]
    exact h.slave
  · dsimp only [closed]
    rw [hmaster]
    omega
  · dsimp only
    rw [hslaves]
    exact h.slaveRefs
  · dsimp only
    rw [hslaves]
    exact h.same
  · exact absurd (hmo.symm.trans hm) (by decide)
  · dsimp only
    rw [hused, hmo]
    simp
  · exact absurd (hmo.symm.trans hm) (by decide)

end

theorem dropSlave_fields (p : Pty) (allowed : Bool) :
    (p.dropSlave allowed).slaves = p.slaves ∧ (p.dropSlave allowed).master = p.master ∧
      (p.dropSlave allowed).masterOpen = p.masterOpen ∧
      (p.dropSlave allowed).slaveOpen = p.slaveOpen ∧ (p.dropSlave allowed).used = p.used ∧
      (p.dropSlave allowed).pipes = p.pipes ∧ (p.dropSlave allowed).nextPipes = p.nextPipes ∧
      (p.dropSlave allowed).freed = p.freed := by
  unfold dropSlave unlink
  split
  · split <;> simp
  · simp

theorem Inv.closeMaster (h : Inv p) (allowed : Bool) : Inv (p.closeMaster allowed) := by
  have hrefs := h.masterRefs
  unfold Pty.closeMaster
  split
  · exact h
  next hopen =>
  have hmo : p.masterOpen = true := h.master.mpr (by omega)
  have hu : p.used = true := h.used.mpr (.inl hmo)
  split
  · next hlast =>
    have hbook := h.book.map (f := fun q => { q with m2sWrite := 0, s2mRead := 0 }) fun _ => rfl
    unfold ptymClose
    rw [if_neg (by simp [hu])]
    dsimp only
    obtain ⟨hslaves, hmaster, hm, hs, hused, hpipes, hnext, hfreed⟩ := dropSlave_fields
      { p with
        masterOpen := false
        pipes := p.pipes.map fun q : PtyPipes => { q with m2sWrite := 0, s2mRead := 0 } } allowed
    split
    · next hso =>
      refine h.lastMaster (by omega) hslaves hmaster hm hs (hbook.congr hused hpipes hnext hfreed)
        (hused.trans (hu.trans hso.symm)) fun _ q hq => ?_
      rw [hpipes] at hq
      obtain ⟨q', hq', rfl⟩ := Option.map_eq_some_iff.mp hq
      exact h.slaveSide (hs.symm.trans hso) q' hq'
    · next hso =>
      refine h.lastMaster (by omega) hslaves hmaster hm hs ?_ ?_ fun _ q hq => (nomatch hq)
      · exact Booked.freePipes (hbook.congr hused hpipes hnext hfreed)
      · exact (Bool.eq_false_of_not_eq_true hso).symm
  · next hmore =>
    refine ⟨h.book.congr rfl rfl rfl rfl, ?_, h.slave, ?_, h.slaveRefs, h.same, h.path, h.used,
      h.masterSide, h.slaveSide⟩
    · rw [h.master]
      dsimp only [closed]
      omega
    · dsimp only [closed]
      omega

theorem createSlave_fields (p : Pty) (allowed made : Bool) :
    let p' := (p.unlink allowed).createSlave made
    (∀ g, p'.slaves g = p.slaves g ∨ p'.slaves g = ⟨0, 0, 0⟩) ∧ p'.masterOpen = p.masterOpen ∧
      p'.slaveOpen = p.slaveOpen ∧ p'.used = p.used ∧ p'.pipes = p.pipes ∧
      p'.nextPipes = p.nextPipes ∧ p'.freed = p.freed := by
  have hunlink : (p.unlink allowed).slaves = p.slaves ∧
      (p.unlink allowed).masterOpen = p.masterOpen ∧ (p.unlink allowed).slaveOpen = p.slaveOpen ∧
      (p.unlink allowed).used = p.used ∧ (p.unlink allowed).pipes = p.pipes ∧
      (p.unlink allowed).nextPipes = p.nextPipes ∧ (p.unlink allowed).freed = p.freed := by
    unfold unlink
    split <;> simp
  obtain ⟨hslaves, hrest⟩ := hunlink
  unfold createSlave
  split
  · refine ⟨fun g => ?_, hrest⟩
    rw [slaves_setSlave, hslaves]
    split
    · exact .inr rfl
    · exact .inl rfl
  · exact ⟨fun g => .inl (congrFun hslaves g), hrest⟩

theorem Booked.newPipes (h : Booked p) (hfree : p.used = false) :
    Booked { p with
      pipes := some ⟨p.nextPipes, 1, 1, 1, 1⟩
      nextPipes := p.nextPipes + 1
      used := true } := by
  have hnone : ¬∃ q, p.pipes = some q := fun hq => by simp [h.pipes.mpr hq] at hfree
  refine ⟨by simp, h.once, fun k hk => (h.bound k hk).trans (Nat.lt_succ_self _), fun q hq => ?_,
    fun k hk => ?_⟩
  · cases hq
    exact ⟨Nat.lt_succ_self _, fun hin => Nat.lt_irrefl _ (h.bound _ hin)⟩
  · rcases Nat.lt_succ_iff_lt_or_eq.mp hk with hlt | rfl
    · exact .inl ((h.freed k hlt).resolve_right fun ⟨q, hq, _⟩ => hnone ⟨q, hq⟩)
    · exact .inr ⟨_, rfl, rfl⟩

theorem Inv.ptmxOpen (h : Inv p) (hfree : p.used = false) (allowed made : Bool) :
    Inv (p.ptmxOpen allowed made true) := by
  have hslave : ∀ g, (p.slaves g).files = 0 := by
    intro g
    by_contra hpos
    have hused := h.used.mpr (.inr (h.slave.mpr ⟨g, Nat.pos_of_ne_zero hpos⟩))
    rw [hfree] at hused
    cases hused
  unfold Pty.ptmxOpen
  dsimp only
  obtain ⟨hslaves, hm, hs, hused, hpipes, hnext, hfreed⟩ := createSlave_fields
    { p with
      pipes := some ⟨p.nextPipes, 1, 1, 1, 1⟩
      nextPipes := p.nextPipes + 1
      used := true
      masterOpen := true
      slaveOpen := false } allowed made
  generalize Pty.createSlave _ made = p' at *
  have hs : p'.slaveOpen = false := hs
  have hnone : ∀ g, ¬0 < (p'.slaves g).files := by
    intro g
    rcases hslaves g with heq | heq <;> rw [heq]
    · exact (hslave g).not_gt
    · exact Nat.lt_irrefl 0
  refine ⟨(h.book.newPipes hfree).congr hused hpipes hnext hfreed, ?_, ?_, rfl, fun g => ?_,
    fun g _ hpos => absurd hpos (hnone g), fun _ _ g _ hpos => absurd hpos (hnone g), ?_,
    fun _ q hq => ?_, fun hso => ?_⟩
  · exact iff_of_true hm Nat.one_pos
  · exact iff_of_false (by simp [hs]) fun ⟨g, hpos⟩ => hnone g hpos
  · dsimp only
    rcases hslaves g with heq | heq <;> rw [heq]
    exact h.slaveRefs g
    rfl
  · exact iff_of_true hused (.inl hm)
  · change p'.pipes = some q at hq
    rw [hpipes] at hq
    cases hq
    exact ⟨Nat.one_pos, Nat.one_pos⟩
  · exact absurd (hs.symm.trans hso) Bool.false_ne_true

end Pty

namespace Dev

variable {s : Dev}

structure Inv (s : Dev) : Prop where
  ptys : ∀ i, (s.ptys i).Inv
  kbdRefs : s.kbd.refcnt = s.kbd.files + s.kbd.lookups
  kbdClosed : s.kbd.files = 0 → s.kbdOpen = 0
  kbdOpen : s.kbd.files ≠ 0 → s.kbdOpen = 1

theorem Inv.follows (h : Inv s) : s.Follows where
  ptys i := (h.ptys i).follows
  kbd := by
    have hclosed := h.kbdClosed
    have hopen := h.kbdOpen
    omega

theorem inv_boot : Inv boot :=
  ⟨fun _ => Pty.inv_boot, rfl, fun _ => rfl, fun h => absurd rfl h⟩

theorem Inv.setPty (h : Inv s) {i : ℕ} {p : Pty} (hp : p.Inv) : Inv (s.setPty i p) := by
  refine ⟨fun j => ?_, h.kbdRefs, h.kbdClosed, h.kbdOpen⟩
  by_cases hj : j = i
  · rw [hj]
    exact (congrArg Pty.Inv (update_self ..)).mpr hp
  · exact (congrArg Pty.Inv (update_of_ne hj ..)).mpr (h.ptys j)

theorem Inv.ptmxOpen (h : Inv s) (pipes allowed made : Bool) :
    Inv (s.ptmxOpen pipes allowed made true) := by
  unfold Dev.ptmxOpen
  split
  · exact h
  next i hi =>
  split
  · exact h
  have hfree : (s.ptys i).used = false := by simpa using List.find?_some hi
  exact h.setPty ((h.ptys i).ptmxOpen hfree allowed made)

theorem Inv.evdevOpen (h : Inv s) {fd : Bool} (hcalm : s.kbd.files = 0 ∨ fd = false) :
    Inv (s.evdevOpen fd) := by
  obtain ⟨hptys, hrefs, hclosed, hopen⟩ := h
  unfold Dev.evdevOpen
  cases fd with
  | false => refine ⟨hptys, hrefs, fun h => ?_, fun h => ?_⟩ <;> dsimp at h ⊢ <;> omega
  | true =>
    have hnone := hcalm.resolve_right (by decide)
    refine ⟨hptys, ?_, fun h => ?_, fun h => ?_⟩ <;> dsimp [opened] at * <;> omega

theorem Inv.closeKbd (h : Inv s) (hcalm : s.kbd.files = 1 → s.kbd.lookups = 0) :
    Inv s.closeKbd := by
  have hinv := h
  obtain ⟨hptys, hrefs, hclosed, hopen⟩ := h
  unfold Dev.closeKbd
  split
  · exact hinv
  split
  all_goals
    refine ⟨hptys, ?_, fun h => ?_, fun h => ?_⟩ <;> dsimp [closed] at * <;> omega

theorem Inv.step (h : Inv s) {a : Act} (hcalm : s.Calm a) : Inv (s.step a) := by
  cases a with
  | openPtmx pipes allowed made fd =>
    cases hcalm
    exact h.ptmxOpen pipes allowed made
  | openPts i fd => exact h.setPty ((h.ptys i).ptysOpen fd hcalm)
  | openKbd fd => exact h.evdevOpen hcalm
  | dupMaster i =>
    unfold Dev.step
    dsimp only
    split
    · exact h
    · next hopen => exact h.setPty ((h.ptys i).dupMaster hopen)
  | dupSlave i g =>
    unfold Dev.step
    dsimp only
    split
    · exact h
    · next hopen => exact h.setPty ((h.ptys i).dupSlave hopen)
  | dupKbd =>
    have hinv := h
    obtain ⟨hptys, hrefs, hclosed, hopen⟩ := h
    unfold Dev.step
    dsimp only
    split
    · exact hinv
    · refine ⟨hptys, ?_, fun h => ?_, fun h => ?_⟩ <;> dsimp [opened] at * <;> omega
  | closeMaster i allowed => exact h.setPty ((h.ptys i).closeMaster allowed)
  | closeSlave i g => exact h.setPty ((h.ptys i).closeSlave hcalm)
  | closeKbd => exact h.closeKbd hcalm
  | lookupPts i =>
    unfold Dev.step
    dsimp only
    split
    · exact h
    · exact h.setPty (h.ptys i).lookup
  | lookupKbd =>
    refine ⟨h.ptys, ?_, h.kbdClosed, h.kbdOpen⟩
    change s.kbd.refcnt + 1 = s.kbd.files + (s.kbd.lookups + 1)
    rw [h.kbdRefs, Nat.add_assoc]
  | releasePts i g => exact h.setPty (h.ptys i).release
  | releaseKbd =>
    have hrefs := h.kbdRefs
    unfold Dev.step release
    dsimp only
    split
    · exact h
    · refine ⟨h.ptys, ?_, h.kbdClosed, h.kbdOpen⟩
      dsimp only
      omega

end Dev

/-- In every run of such calls, flags and counts are those of the descriptors. -/
theorem device_state_follows (as : List Act) (h : Along step Dev.Calm boot as) :
    Always step Dev.Follows boot as := by
  have hinv := h.always inv_boot fun s a hs ha => hs.step ha
  exact fun pre hp => (hinv pre hp).follows

def session : List Act :=
  [.openPtmx true true true true, .openPts 0 true, .dupSlave 0 0, .closeMaster 0 true,
    .closeSlave 0 0, .closeSlave 0 0, .openKbd true, .closeKbd]

theorem device_state_follows_session : Always step Dev.Follows boot session := by
  refine device_state_follows session ?_
  simp only [session, along_cons]
  refine ⟨rfl, fun q hq => ?_, trivial, trivial, fun h => ?_, fun _ => rfl, .inl rfl,
    fun _ => rfl, along_nil⟩
  · cases hq
    decide
  · exact absurd h (by decide)

def reopened : List Act :=
  [.openPtmx true true true true, .openPts 0 true, .closeSlave 0 0, .openPts 0 true]

def openedTwice : List Act := [.openKbd true, .openKbd true, .closeKbd, .closeKbd]

def lookedUp : List Act :=
  [.openPtmx true true true true, .openPts 0 true, .lookupPts 0, .closeSlave 0 0]

/-- The second open of the slave finds pipes without its side, the event device stays open, a close
that meets a lookup is not noticed, and a master without a descriptor stays open. -/
theorem device_state_drifts :
    (¬Always step Dev.Follows boot reopened ∧
      ((exec step boot reopened).ptys 0).pipes = some ⟨0, 0, 1, 1, 0⟩) ∧
    (¬Always step Dev.Follows boot openedTwice ∧
      (exec step boot openedTwice).kbdOpen = 1 ∧
      (exec step boot openedTwice).kbd.files = 0) ∧
    ¬Always step Dev.Follows boot lookedUp ∧
    ¬Always step Dev.Follows boot [.openPtmx true true true false] := by
  refine ⟨⟨fun h => ?_, by decide⟩, ⟨fun h => ?_, by decide, by decide⟩, fun h => ?_, fun h => ?_⟩
  · obtain ⟨q, hq, hr, -⟩ := ((h _ prefix_rfl).ptys 0).joined (by decide) (by decide)
    have hpipes : ((exec step boot reopened).ptys 0).pipes = some ⟨0, 0, 1, 1, 0⟩ := by
      decide
    rw [hpipes] at hq
    cases hq
    exact Nat.lt_irrefl 0 hr
  · exact absurd ((h _ prefix_rfl).kbd.mp (by decide)) (by decide)
  · obtain ⟨g, hg⟩ := ((h _ prefix_rfl).ptys 0).slave.mp (by decide)
    cases g with
    | zero => exact absurd hg (by decide)
    | succ g => exact absurd hg (Nat.lt_irrefl 0)
  · exact absurd (((h _ prefix_rfl).ptys 0).master.mp (by decide)) (by decide)

end Kyronix.Fs.DevOpen
