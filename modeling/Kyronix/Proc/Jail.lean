import Kyronix.Errno
import Kyronix.Lib.Ledger
import Kyronix.Lib.Run
import Kyronix.Lib.Table
import Kyronix.Fs.Tree

/-! Jails (`jail.c`, `jailsys.c`). The id of a jail is its slot, so it comes back after the jail is
gone, while its children still name it as their parent. Serial numbers, which the kernel does not
have, tell such jails apart. -/
namespace Kyronix.Proc

open Lib.Ledger Lib.Run
open Function (update update_self update_of_ne update_eq_self)
open Fs (Text cut pathCanon procMax)

inductive JailState
  | unused
  | active
  | dying
deriving DecidableEq

structure Jail where
  state : JailState
  parentId : ℕ
  flags : UInt32
  root : Text
  nprocs : ℕ
  maxProcs : ℕ
  serial : ℕ
deriving DecidableEq

open Jail

structure JailProc where
  jailId : ℕ
  exempt : Bool
  zombie : Bool
  serial : ℕ
deriving DecidableEq

/-- The table by jail id; `creator` gives for each jail the one it was made in. -/
structure JailSys where
  jails : ℕ → Jail
  auto : Bool
  proc : Fin procMax → Option JailProc
  nextSerial : ℕ
  creator : ℕ → ℕ

structure JailConf where
  root : Text
  flags : UInt32
  maxProcs : ℕ
  attach : Bool
deriving DecidableEq

def jailMax : ℕ := 32
def jailHost : ℕ := 0
def jailfPriv : UInt32 := 0x08
def jailfAll : UInt32 := 0x0f

variable (s : JailSys) (i : Fin procMax) (p : JailProc) (id : ℕ)

def jailFind : Option Jail :=
  if id = jailHost ∨ jailMax < id ∨ (s.jails id).state = .unused then none else some (s.jails id)

def descends (s : JailSys) (a : ℕ) : ℕ → ℕ → Bool
  | 0, _ => false
  | guard + 1, cur =>
    if cur = jailHost then false
    else match jailFind s cur with
      | none => false
      | some j => j.parentId == a || descends s a guard j.parentId

def jailIsDescendant (a b : ℕ) : Bool :=
  a == b || a == jailHost || descends s a (jailMax + 1) b

def jailHostPriv (euid : UInt32) (initial : Bool) : Bool :=
  euid == 0 && initial && (jailFind s p.jailId).all fun j => j.flags &&& jailfPriv == 0

def setJail (j : Jail) : JailSys :=
  { s with jails := update s.jails id j }

def modJail (f : Jail → Jail) : JailSys :=
  match jailFind s id with
  | none => s
  | some j => setJail s id (f j)

def jailRef : JailSys :=
  modJail s id fun j => { j with nprocs := j.nprocs + 1 }

def jailUnref : JailSys :=
  modJail s id fun j => { j with nprocs := j.nprocs - 1 }

def jailReap : JailSys :=
  modJail s id fun j => if j.state = .dying ∧ j.nprocs = 0 then { j with state := .unused } else j

def jailCanFork : Bool :=
  (jailFind s id).all fun j => j.state == .active && !(j.maxProcs != 0 && j.nprocs ≥ j.maxProcs)

def setProc (o : Option JailProc) : JailSys :=
  { s with proc := update s.proc i o }

def jailEnter : JailSys :=
  if p.jailId = id then s
  else
    let serial := ((jailFind s id).map serial).getD 0
    let s := setProc (jailUnref s p.jailId) i
      (some { p with jailId := id, exempt := false, serial := serial })
    jailRef s id

def jailRoot (proot croot : Text) : Text :=
  let canon := pathCanon 512 (cut 512 (proot ++ '/' :: croot))
  if proot ≠ [] ∧ proot.isPrefixOf canon = false then cut 512 proot else canon

def jailCreate (parent : ℕ) (cfg : JailConf) : ℤ × JailSys :=
  if parent ≠ jailHost ∧ jailFind s parent = none then (-einval, s)
  else
    let proot := ((jailFind s parent).map root).getD []
    let root := jailRoot proot cfg.root
    if root.length ≥ 256 then (-einval, s)
    else match (List.range' 1 jailMax).find? fun id => (s.jails id).state = .unused with
      | none => (-enospc, s)
      | some id =>
        let j : Jail :=
          { state := .active, parentId := parent, flags := cfg.flags &&& jailfAll, root := root,
            nprocs := 0, maxProcs := cfg.maxProcs, serial := s.nextSerial }
        let pserial := ((jailFind s parent).map serial).getD 0
        (id, { setJail s id j with
          nextSerial := s.nextSerial + 1
          creator := update s.creator s.nextSerial pserial })

def jailRemove (p : JailProc) (euid : UInt32) (initial : Bool) : ℤ × JailSys :=
  match jailFind s id with
  | none => (-enoent, s)
  | some j =>
    if jailHostPriv s p euid initial = false ∧
        ¬ (jailIsDescendant s p.jailId id = true ∧ p.jailId ≠ id) then (-eperm, s)
    else (0, setJail s id { j with state := if j.nprocs = 0 then .unused else .dying })

def sysJailCreate (euid : UInt32) (initial readable : Bool) (cfg : JailConf) : ℤ × JailSys :=
  if jailHostPriv s p euid initial = false then (-eperm, s)
  else if readable = false then (-efault, s)
  else
    let r := jailCreate s p.jailId { cfg with root := cut 256 cfg.root }
    if r.1 < 0 then r
    else if cfg.attach = true then (r.1, jailEnter r.2 i p r.1.toNat)
    else r

def sysJailAttach : ℤ × JailSys :=
  if (jailFind s id).all (fun j => j.state != .active) = true then (-esrch, s)
  else if jailIsDescendant s p.jailId id = false then (-eperm, s)
  else if jailCanFork s id = false then (-eagain, s)
  else (0, jailEnter s i p id)

def execIsolate : JailSys :=
  if s.auto = true ∧ p.exempt = false then
    let r := jailCreate s p.jailId ⟨[], jailfAll, 0, false⟩
    if r.1 > 0 then jailEnter r.2 i p r.1.toNat else r.2
  else s

def jailFork (child : Fin procMax) : JailSys :=
  if s.proc child ≠ none ∨ jailCanFork s p.jailId = false then s
  else jailRef (setProc s child (some p)) p.jailId

inductive JailCall
  | create (euid : UInt32) (initial readable : Bool) (cfg : JailConf)
  | attach (id : ℕ)
  | remove (euid : UInt32) (initial : Bool) (id : ℕ)
  | setAuto (euid : UInt32) (initial on : Bool)
  | execve
  | fork (child : Fin procMax)
  | exit

/-- A call of a process, or the end of a dead one in the `wait4` of its parent. -/
inductive JailAct
  | call (i : Fin procMax) (call : JailCall)
  | reaped (i : Fin procMax)

def JailCall.run : JailCall → ℤ × JailSys
  | .create euid initial readable cfg => sysJailCreate s i p euid initial readable cfg
  | .attach id => sysJailAttach s i p id
  | .remove euid initial id => jailRemove s id p euid initial
  | .setAuto euid initial on =>
    if jailHostPriv s p euid initial = false then (-eperm, s) else (0, { s with auto := on })
  | .execve => (0, execIsolate s i p)
  | .fork child => (0, jailFork s p child)
  | .exit => (0, setProc (jailUnref s p.jailId) i (some { p with zombie := true }))

def liveProc : Option JailProc :=
  (s.proc i).filter fun p => !p.zombie

def jailStep : JailAct → JailSys
  | .call i call =>
    match liveProc s i with
    | none => s
    | some p => (call.run s i p).2
  | .reaped i =>
    match (s.proc i).filter JailProc.zombie with
    | none => s
    | some p => jailReap (setProc s i none) p.jailId

section

variable {s t : JailSys} {i : Fin procMax} {p q : JailProc} {j : Jail} {k m : ℕ}
  {o : Option JailProc}

def resident (k : ℕ) (o : Option JailProc) : ℕ :=
  if (o.filter fun p => !p.zombie).map JailProc.jailId = some k then 1 else 0

def population (proc : Fin procMax → Option JailProc) (k : ℕ) : ℕ :=
  total (fun _ => resident k) proc Finset.univ

theorem population_update (proc : Fin procMax → Option JailProc) (i : Fin procMax)
    (o : Option JailProc) (k : ℕ) :
    population (update proc i o) k + resident k (proc i) =
      population proc k + resident k o :=
  @total_update_univ (Fin procMax) ℕ (fun _ => Option JailProc) _ _ (fun _ => resident k) proc i _ o

theorem population_pos {proc : Fin procMax → Option JailProc} (hp : proc i = some p)
    (hz : p.zombie = false) : 0 < population proc p.jailId := by
  have hup := population_update proc i none p.jailId
  have hone : resident p.jailId (proc i) = 1 := by
    rw [hp]
    simp [resident, Option.filter, hz]
  have hnone : resident p.jailId none = 0 := rfl
  rw [hone, hnone] at hup
  omega

theorem population_eq_zero {proc : Fin procMax → Option JailProc}
    (h : ∀ i p, proc i = some p → p.zombie = false → p.jailId ≠ k) : population proc k = 0 := by
  unfold population total
  apply Finset.sum_eq_zero
  intro i _
  show resident k (proc i) = 0
  unfold resident
  rw [if_neg]
  intro hk
  obtain ⟨p, hp, hid⟩ := Option.map_eq_some_iff.mp hk
  obtain ⟨hp, hz⟩ := Option.filter_eq_some_iff.mp hp
  exact h i p hp (by simpa using hz) hid

/-- What the jail tree is made of. -/
def Jail.core (j : Jail) : ℕ × ℕ × Text := (j.parentId, j.serial, j.root)

/-- Every live process is in the jail that it entered, every jail counts the processes in it and
names the jail it was made in. -/
structure JailInv (s : JailSys) : Prop where
  home : ∀ {i p}, s.proc i = some p → p.zombie = false →
    p.jailId = 0 ∧ p.serial = 0 ∨ ∃ j, jailFind s p.jailId = some j ∧ j.serial = p.serial
  count : ∀ {k j}, jailFind s k = some j → j.nprocs = population s.proc k
  parent : ∀ {k j}, jailFind s k = some j → j.parentId = 0 ∧ s.creator j.serial = 0 ∨
    ∃ pj, jailFind s j.parentId = some pj ∧ pj.serial = s.creator j.serial
  older : ∀ {k j}, jailFind s k = some j → 0 < j.serial ∧ j.serial < s.nextSerial
  down : ∀ n, 0 < n → s.creator n < n
  first : 0 < s.nextSerial

theorem jailFind_some (h : jailFind s k = some j) :
    k ≠ 0 ∧ k ≤ jailMax ∧ j = s.jails k ∧ j.state ≠ .unused := by
  unfold jailFind at h
  split at h
  · cases h
  next hne =>
    cases h
    rw [not_or, not_or] at hne
    exact ⟨hne.1, Nat.not_lt.mp hne.2.1, rfl, hne.2.2⟩

theorem jailFind_setJail_ne (h : m ≠ k) : jailFind (setJail s k j) m = jailFind s m := by
  have hget : (setJail s k j).jails m = s.jails m := update_of_ne h ..
  simp only [jailFind, hget]

theorem jailFind_setJail_self (hk : k ≠ 0) (hmax : k ≤ jailMax) :
    jailFind (setJail s k j) k = if j.state = .unused then none else some j := by
  have hget : (setJail s k j).jails k = j := update_self ..
  have hlt : ¬ jailMax < k := Nat.not_lt.mpr hmax
  simp only [jailFind, hget, jailHost, hk, hlt, false_or]

variable (f : Jail → Jail)

theorem jailFind_modJail (hf : ∀ j, j.state ≠ .unused → (f j).state ≠ .unused)
    (m : ℕ) : jailFind (modJail s k f) m =
      if m = k then (jailFind s m).map f else jailFind s m := by
  unfold modJail
  cases hk : jailFind s k with
  | none =>
    by_cases hm : m = k
    · subst hm
      rw [if_pos rfl, hk]
      rfl
    · rw [if_neg hm]
  | some j =>
    obtain ⟨hne, hmax, hj, hst⟩ := jailFind_some hk
    by_cases hm : m = k
    · subst hm
      rw [if_pos rfl, hk]
      exact (jailFind_setJail_self hne hmax).trans (if_neg (hf j hst))
    · rw [if_neg hm]
      exact jailFind_setJail_ne hm

theorem modJail_proc : (modJail s k f).proc = s.proc := by
  unfold modJail
  split <;> rfl

theorem modJail_creator :
    (modJail s k f).creator = s.creator ∧ (modJail s k f).nextSerial = s.nextSerial := by
  unfold modJail
  split <;> exact ⟨rfl, rfl⟩

structure SameTree (s t : JailSys) : Prop where
  core : ∀ m, (jailFind t m).map core = (jailFind s m).map core
  creator : t.creator = s.creator
  next : t.nextSerial = s.nextSerial

theorem SameTree.refl (s : JailSys) : SameTree s s := ⟨fun _ => rfl, rfl, rfl⟩

theorem SameTree.trans {u : JailSys} (h : SameTree s t) (h' : SameTree t u) : SameTree s u :=
  ⟨fun m => (h'.core m).trans (h.core m), h'.creator.trans h.creator, h'.next.trans h.next⟩

theorem SameTree.some (h : SameTree s t) (hj : jailFind t k = some j) :
    ∃ j', jailFind s k = some j' ∧ j'.parentId = j.parentId ∧ j'.serial = j.serial := by
  have hcore := h.core k
  rw [hj] at hcore
  obtain ⟨j', hj', heq⟩ := Option.map_eq_some_iff.mp hcore.symm
  obtain ⟨hp, hrest⟩ := Prod.mk.inj heq
  exact ⟨j', hj', hp, congrArg Prod.fst hrest⟩

theorem SameTree.symm (h : SameTree s t) : SameTree t s :=
  ⟨fun m => (h.core m).symm, h.creator.symm, h.next.symm⟩

theorem sameTree_modJail {f : Jail → Jail} (hf : ∀ j, j.state ≠ .unused → (f j).state ≠ .unused)
    (hcore : ∀ j, (f j).core = j.core) : SameTree s (modJail s k f) where
  core := by
    intro m
    rw [jailFind_modJail f hf]
    split
    · cases jailFind s m with
      | none => rfl
      | some j => exact congrArg Option.some (hcore j)
    · rfl
  creator := (modJail_creator f).1
  next := (modJail_creator f).2

def headcount (s : JailSys) (k : ℕ) : ℕ := ((jailFind s k).map nprocs).getD 0

def Counted (s : JailSys) : Prop := ∀ k ≠ 0, headcount s k = population s.proc k

structure Moves (s t : JailSys) (i : Fin procMax) (o : Option JailProc) : Prop where
  tree : SameTree s t
  proc : t.proc = update s.proc i o
  count : ∀ k ≠ 0, headcount t k + resident k (s.proc i) = headcount s k + resident k o

theorem headcount_some (h : jailFind s k = some j) : headcount s k = j.nprocs := by
  rw [headcount, h]
  rfl

theorem headcount_modJail (hf : ∀ j, j.state ≠ .unused → (f j).state ≠ .unused) (m : ℕ) :
    headcount (modJail s k f) m =
      if m = k then ((jailFind s m).map fun j => (f j).nprocs).getD 0 else headcount s m := by
  unfold headcount
  rw [jailFind_modJail f hf]
  split
  · rw [Option.map_map]
    rfl
  · rfl

theorem headcount_ref (h : k ≠ 0 → jailFind s k ≠ none) (hm : m ≠ 0) :
    headcount (jailRef s k) m = headcount s m + if k = m then 1 else 0 := by
  unfold jailRef
  rw [headcount_modJail (fun j => { j with nprocs := j.nprocs + 1 }) fun _ h => h]
  by_cases hk : m = k
  · subst hk
    obtain ⟨j, hj⟩ := Option.ne_none_iff_exists'.mp (h hm)
    simp [headcount, hj]
  · rw [if_neg hk, if_neg (Ne.symm hk), Nat.add_zero]

theorem headcount_unref (m : ℕ) :
    headcount (jailUnref s k) m = headcount s m - if k = m then 1 else 0 := by
  unfold jailUnref
  rw [headcount_modJail (fun j => { j with nprocs := j.nprocs - 1 }) fun _ h => h]
  by_cases hk : m = k
  · subst hk
    cases hj : jailFind s m <;> simp [headcount, hj]
  · rw [if_neg hk, if_neg (Ne.symm hk), Nat.sub_zero]

theorem resident_some (k : ℕ) (p : JailProc) :
    resident k (some p) = if p.zombie = false ∧ p.jailId = k then 1 else 0 := by
  unfold resident
  cases hz : p.zombie <;> simp [Option.filter, hz]

theorem sameTree_ref : SameTree s (jailRef s k) := sameTree_modJail (fun _ h => h) fun _ => rfl

theorem sameTree_unref : SameTree s (jailUnref s k) := sameTree_modJail (fun _ h => h) fun _ => rfl

theorem sameTree_setProc (h : SameTree s t) (i : Fin procMax) (o : Option JailProc) :
    SameTree s (setProc t i o) := ⟨h.core, h.creator, h.next⟩

section

variable (h : Counted s) (hp : s.proc i = some p) (hz : p.zombie = false) (h0 : p.jailId ≠ 0)
include h hp hz h0

theorem Counted.pos : 0 < headcount s p.jailId := by
  rw [h _ h0]
  exact population_pos hp hz

theorem Counted.found : jailFind s p.jailId ≠ none := by
  intro hnone
  have hpos := h.pos hp hz h0
  simp [headcount, hnone] at hpos

end

theorem Counted.move (h : Counted s) (hm : Moves s t i o) : Counted t := by
  intro k hk
  have hcount := hm.count k hk
  have hpop := population_update s.proc i o k
  rw [h k hk] at hcount
  rw [hm.proc]
  omega

section

variable (h : Counted s) (hp : s.proc i = some p) (hz : p.zombie = false)
include h hp hz

theorem Counted.enter (hj : jailFind s k = some j) (hne : p.jailId ≠ k) :
    Moves s (jailEnter s i p k) i
      (some { p with jailId := k, exempt := false, serial := j.serial }) := by
  simp only [jailEnter, if_neg hne, hj, Option.map_some, Option.getD_some]
  set u := setProc (jailUnref s p.jailId) i
    (some { p with jailId := k, exempt := false, serial := j.serial })
  have hu : SameTree s u := sameTree_setProc sameTree_unref i _
  have hfound : k ≠ 0 → jailFind u k ≠ none := by
    obtain ⟨j', hj', -, -⟩ := hu.symm.some hj
    simp [hj']
  refine ⟨hu.trans sameTree_ref, ?_, fun m hm => ?_⟩
  · unfold jailRef
    rw [modJail_proc]
    show update (jailUnref s p.jailId).proc i _ = _
    unfold jailUnref
    rw [modJail_proc]
  · rw [headcount_ref hfound hm, show headcount u m = _ from headcount_unref m, hp, resident_some,
      resident_some]
    have hpos := h.pos hp hz
    grind

theorem Counted.fork {child : Fin procMax} (hfree : s.proc child = none) :
    Moves s (jailRef (setProc s child (some p)) p.jailId) child (some p) := by
  set u := setProc s child (some p)
  have hu : SameTree s u := sameTree_setProc (.refl s) child _
  have hfound : p.jailId ≠ 0 → jailFind u p.jailId ≠ none := h.found hp hz
  refine ⟨hu.trans sameTree_ref, modJail_proc _, fun m hm => ?_⟩
  rw [headcount_ref hfound hm, show headcount u m = headcount s m from rfl, hfree, resident_some,
    hz]
  simp [resident]

theorem Counted.exit : Moves s (setProc (jailUnref s p.jailId) i (some { p with zombie := true })) i
      (some { p with zombie := true }) := by
  refine ⟨sameTree_setProc sameTree_unref i _, ?_, fun m hm => ?_⟩
  · show update (jailUnref s p.jailId).proc i _ = _
    unfold jailUnref
    rw [modJail_proc]
  · rw [show headcount (setProc (jailUnref s p.jailId) i _) m = _ from headcount_unref m, hp,
      resident_some, resident_some]
    have hpos := h.pos hp hz
    grind

end

theorem moves_reaped (hp : s.proc i = some p) (hz : p.zombie = true) :
    Moves s (setProc s i none) i none := by
  refine ⟨sameTree_setProc (.refl s) i none, rfl, fun m _ => ?_⟩
  rw [hp, resident_some, hz]
  rfl

section

variable (h : JailInv s)
include h

theorem JailInv.counted : Counted s := by
  intro k hk
  cases hj : jailFind s k with
  | some j => rw [headcount_some hj, h.count hj]
  | none =>
    rw [headcount, hj]
    refine (population_eq_zero fun i p hp hz hid => ?_).symm
    rcases h.home hp hz with ⟨hhost, -⟩ | ⟨j, hj', -⟩
    · exact hk (hid.symm.trans hhost)
    · rw [hid, hj] at hj'
      cases hj'

theorem JailInv.move (hm : Moves s t i o) (hhome : ∀ p, o = some p → p.zombie = false →
      p.jailId = 0 ∧ p.serial = 0 ∨ ∃ j, jailFind s p.jailId = some j ∧ j.serial = p.serial) :
    JailInv t where
  home := by
    have hto : ∀ {k n}, (∃ j, jailFind s k = some j ∧ j.serial = n) →
        ∃ j, jailFind t k = some j ∧ j.serial = n := by
      rintro k n ⟨j, hj, hn⟩
      obtain ⟨j', hj', -, hs⟩ := hm.tree.symm.some hj
      exact ⟨j', hj', hs.trans hn⟩
    intro l p hp hz
    rw [hm.proc] at hp
    rcases Lib.of_update hp with ⟨rfl, hp'⟩ | ⟨-, hp⟩
    · exact (hhome p hp' hz).imp_right hto
    · exact (h.home hp hz).imp_right hto
  count hj := (headcount_some hj).symm.trans (h.counted.move hm _ (jailFind_some hj).1)
  parent := by
    intro k j hj
    obtain ⟨j', hj', hp, hs⟩ := hm.tree.some hj
    rw [← hp, ← hs, hm.tree.creator]
    rcases h.parent hj' with hhost | ⟨pj, hpj, hps⟩
    · exact .inl hhost
    · obtain ⟨pj', hpj', -, hps'⟩ := hm.tree.symm.some hpj
      exact .inr ⟨pj', hpj', hps'.trans hps⟩
  older := by
    intro k j hj
    obtain ⟨j', hj', -, hs⟩ := hm.tree.some hj
    rw [← hs, hm.tree.next]
    exact h.older hj'
  down := hm.tree.creator ▸ h.down
  first := hm.tree.next ▸ h.first

section

variable (hp : s.proc i = some p) (hz : p.zombie = false)
include hp hz

theorem JailInv.enter (hj : jailFind s k = some j) : JailInv (jailEnter s i p k) := by
  by_cases hne : p.jailId = k
  · rwa [jailEnter, if_pos hne]
  · refine h.move (h.counted.enter hp hz hj hne) fun q hq _ => ?_
    cases hq
    exact .inr ⟨j, hj, rfl⟩

theorem JailInv.fork (child : Fin procMax) : JailInv (jailFork s p child) := by
  unfold jailFork
  split
  · exact h
  next hok =>
    rw [not_or, not_not] at hok
    refine h.move (h.counted.fork hp hz hok.1) fun q hq _ => ?_
    cases hq
    exact h.home hp hz

theorem JailInv.exit :
    JailInv (setProc (jailUnref s p.jailId) i (some { p with zombie := true })) :=
  h.move (h.counted.exit hp hz) fun q hq hqz => by
    cases hq
    cases hqz

end

theorem JailInv.reaped (hp : s.proc i = some p) (hz : p.zombie = true) :
    JailInv (setProc s i none) :=
  h.move (moves_reaped hp hz) fun _ hq => by cases hq

theorem JailInv.auto (on : Bool) : JailInv { s with auto := on } :=
  ⟨h.home, h.count, h.parent, h.older, h.down, h.first⟩

end

theorem modJail_of_find (hj : jailFind s k = some j) (f : Jail → Jail) :
    modJail s k f = setJail s k (f j) := by
  rw [modJail, hj]

theorem moves_retire (hj : jailFind s k = some j) (i : Fin procMax) :
    Moves s (setJail s k { j with state := .dying }) i (s.proc i) := by
  have hmod := modJail_of_find hj fun j => { j with state := .dying }
  have hdying : ∀ j : Jail, j.state ≠ .unused →
      ({ j with state := .dying } : Jail).state ≠ .unused := fun _ _ => nofun
  rw [← hmod]
  refine ⟨sameTree_modJail hdying fun _ => rfl, (modJail_proc _).trans (update_eq_self ..).symm,
    fun m _ => ?_⟩
  rw [headcount_modJail _ hdying]
  simp [headcount]

theorem JailInv.retire (h : JailInv s) (hj : jailFind s k = some j) :
    JailInv (setJail s k { j with state := .dying }) :=
  h.move (moves_retire hj ⟨0, by decide⟩) fun _ hp hz => h.home hp hz

def Childless (s : JailSys) (k : ℕ) : Prop := ∀ m x, jailFind s m = some x → x.parentId ≠ k

theorem JailInv.remove (h : JailInv s) (hj : jailFind s k = some j) (hn : j.nprocs = 0)
    (hchild : Childless s k) : JailInv (setJail s k { j with state := .unused }) := by
  obtain ⟨hk, hmax, -, -⟩ := jailFind_some hj
  have hself : jailFind (setJail s k { j with state := .unused }) k = none := by
    rw [jailFind_setJail_self hk hmax, if_pos rfl]
  have hback : ∀ {m x}, jailFind (setJail s k { j with state := .unused }) m = some x →
      m ≠ k ∧ jailFind s m = some x := by
    intro m x hx
    have hm : m ≠ k := by
      intro hm
      subst hm
      rw [hself] at hx
      cases hx
    exact ⟨hm, (jailFind_setJail_ne hm).symm.trans hx⟩
  constructor
  case home =>
    intro i p hp hz
    have hp : s.proc i = some p := hp
    rcases h.home hp hz with hhost | ⟨x, hx, hs⟩
    · exact .inl hhost
    · have hm : p.jailId ≠ k := by
        intro hm
        have hpos := h.counted.pos hp hz (hm ▸ hk)
        rw [hm, headcount_some hj] at hpos
        omega
      exact .inr ⟨x, (jailFind_setJail_ne hm).trans hx, hs⟩
  case count => exact fun hx => h.count (hback hx).2
  case parent =>
    intro m x hx
    rcases h.parent (hback hx).2 with hhost | ⟨pj, hpj, hs⟩
    · exact .inl hhost
    · exact .inr ⟨pj, (jailFind_setJail_ne (hchild m x (hback hx).2)).trans hpj, hs⟩
  case older => exact fun hx => h.older (hback hx).2
  case down => exact h.down
  case first => exact h.first

theorem JailInv.create (h : JailInv s) {parent : ℕ} (hk : k ≠ 0) (hmax : k ≤ jailMax)
    (hfree : (s.jails k).state = .unused) (hst : j.state ≠ .unused) (hpar : j.parentId = parent)
    (hn : j.nprocs = 0) (hs : j.serial = s.nextSerial)
    (hparent : parent = jailHost ∨ jailFind s parent ≠ none) (hpos : 0 < s.nextSerial) :
    JailInv { setJail s k j with
      nextSerial := s.nextSerial + 1
      creator := update s.creator s.nextSerial
        (((jailFind s parent).map serial).getD 0) } := by
  set t : JailSys := { setJail s k j with
      nextSerial := s.nextSerial + 1
      creator := update s.creator s.nextSerial
        (((jailFind s parent).map serial).getD 0) } with ht
  have hnone : jailFind s k = none := by
    unfold jailFind
    rw [if_pos (.inr (.inr hfree))]
  have hself : jailFind t k = some j := (jailFind_setJail_self hk hmax).trans (if_neg hst)
  have hne : ∀ {m}, m ≠ k → jailFind t m = jailFind s m := fun hm => jailFind_setJail_ne hm
  have hold : ∀ {m x}, jailFind s m = some x → jailFind t m = some x := by
    intro m x hx
    rw [hne, hx]
    intro hm
    subst hm
    rw [hnone] at hx
    cases hx
  have hcases : ∀ {m x}, jailFind t m = some x → m = k ∧ x = j ∨ jailFind s m = some x := by
    intro m x hx
    by_cases hm : m = k
    · subst hm
      rw [hself] at hx
      cases hx
      exact .inl ⟨rfl, rfl⟩
    · exact .inr ((hne hm).symm.trans hx)
  have hcreator : ∀ {n}, n ≠ s.nextSerial → t.creator n = s.creator n :=
    fun hn => update_of_ne hn ..
  have hnew : t.creator s.nextSerial = ((jailFind s parent).map serial).getD 0 :=
    update_self ..
  constructor
  case home =>
    intro i p hp hz
    rcases h.home hp hz with hhost | ⟨x, hx, hs⟩
    · exact .inl hhost
    · exact .inr ⟨x, hold hx, hs⟩
  case count =>
    intro m x hx
    rcases hcases hx with ⟨rfl, rfl⟩ | hx
    · rw [hn]
      apply (population_eq_zero _).symm
      intro i p hp hz heq
      rcases h.home hp hz with hhost | ⟨y, hy, -⟩
      · exact hk (heq.symm.trans hhost.1)
      · rw [heq, hnone] at hy
        cases hy
    · exact h.count hx
  case parent =>
    intro m x hx
    rcases hcases hx with ⟨rfl, rfl⟩ | hx
    · rw [hs, hnew, hpar]
      rcases hparent with rfl | hex
      · exact .inl ⟨rfl, rfl⟩
      · obtain ⟨pj, hpj⟩ := Option.ne_none_iff_exists'.mp hex
        rw [hpj]
        exact .inr ⟨pj, hold hpj, rfl⟩
    · have hlt := (h.older hx).2
      rw [hcreator hlt.ne]
      rcases h.parent hx with hhost | ⟨pj, hpj, hps⟩
      · exact .inl hhost
      · exact .inr ⟨pj, hold hpj, hps⟩
  case older =>
    intro m x hx
    rcases hcases hx with ⟨rfl, rfl⟩ | hx
    · rw [hs]
      exact ⟨hpos, Nat.lt_succ_self _⟩
    · obtain ⟨hlo, hlt⟩ := h.older hx
      exact ⟨hlo, Nat.lt_succ_of_lt hlt⟩
  case down =>
    intro n hn0
    by_cases hn' : n = s.nextSerial
    · subst hn'
      rw [hnew]
      cases hp : jailFind s parent with
      | none => exact hpos
      | some pj => exact (h.older hp).2
    · rw [hcreator hn']
      exact h.down n hn0
  case first => exact Nat.succ_pos _

theorem jailCreate_cases (s : JailSys) (parent : ℕ) (cfg : JailConf) :
    (∃ e, e < 0 ∧ jailCreate s parent cfg = (e, s)) ∨
      ∃ k j, k ≠ 0 ∧ k ≤ jailMax ∧ (s.jails k).state = .unused ∧ j.state = .active ∧
        j.parentId = parent ∧ j.nprocs = 0 ∧ j.serial = s.nextSerial ∧
        j.root = jailRoot (((jailFind s parent).map root).getD []) cfg.root ∧
        j.root.length < 256 ∧ (parent = jailHost ∨ jailFind s parent ≠ none) ∧
        jailCreate s parent cfg = ((k : ℤ), { setJail s k j with
          nextSerial := s.nextSerial + 1
          creator := update s.creator s.nextSerial
            (((jailFind s parent).map serial).getD 0) }) := by
  unfold jailCreate
  split
  · exact .inl ⟨-einval, by decide, rfl⟩
  next hpar =>
    dsimp only
    split
    · exact .inl ⟨-einval, by decide, rfl⟩
    next hlen =>
    split
    · exact .inl ⟨-enospc, by decide, rfl⟩
    next k hk =>
      have hmem := List.mem_range'_1.mp (List.mem_of_find?_eq_some hk)
      have hfree : (s.jails k).state = .unused := by simpa using List.find?_some hk
      have hparent : parent = jailHost ∨ jailFind s parent ≠ none := by
        by_contra hno
        rw [not_or, not_not] at hno
        exact hpar hno
      exact .inr ⟨k, _, by omega, by omega, hfree, rfl, rfl, rfl, rfl, rfl, not_le.mp hlen,
        hparent, rfl⟩

theorem JailInv.jailCreate (h : JailInv s) (parent : ℕ) (cfg : JailConf) :
    JailInv (jailCreate s parent cfg).2 ∧ (jailCreate s parent cfg).2.proc = s.proc ∧
      (0 ≤ (jailCreate s parent cfg).1 →
        ∃ j, jailFind (jailCreate s parent cfg).2 (jailCreate s parent cfg).1.toNat = some j) := by
  rcases jailCreate_cases s parent cfg with
    ⟨e, he, heq⟩ | ⟨k, j, hk, hmax, hfree, hst, hpar, hn, hs, -, -, hparent, heq⟩
  · rw [heq]
    exact ⟨h, rfl, fun h0 => absurd he (by omega)⟩
  · have hlive : j.state ≠ .unused := by
      rw [hst]
      decide
    rw [heq]
    refine ⟨h.create hk hmax hfree hlive hpar hn hs hparent h.first, rfl, fun _ => ⟨j, ?_⟩⟩
    show jailFind (setJail s k j) k = some j
    rw [jailFind_setJail_self hk hmax, if_neg hlive]

section

variable (h : JailInv s) (hp : s.proc i = some p) (hz : p.zombie = false)
include h hp hz

theorem JailInv.sysJailCreate (euid : UInt32) (initial readable : Bool) (cfg : JailConf) :
    JailInv (sysJailCreate s i p euid initial readable cfg).2 := by
  unfold Proc.sysJailCreate
  split
  · exact h
  split
  · exact h
  dsimp only
  obtain ⟨hinv, hproc, hfind⟩ := h.jailCreate p.jailId { cfg with root := cut 256 cfg.root }
  split
  · exact hinv
  next hneg =>
    split
    · obtain ⟨j, hj⟩ := hfind (Int.not_lt.mp hneg)
      exact hinv.enter ((congrFun hproc i).trans hp) hz hj
    · exact hinv

theorem JailInv.execIsolate : JailInv (execIsolate s i p) := by
  unfold Proc.execIsolate
  split
  · dsimp only
    obtain ⟨hinv, hproc, hfind⟩ := h.jailCreate p.jailId ⟨[], jailfAll, 0, false⟩
    split
    · next hpos =>
      obtain ⟨j, hj⟩ := hfind (by omega)
      exact hinv.enter ((congrFun hproc i).trans hp) hz hj
    · exact hinv
  · exact h

theorem JailInv.sysJailAttach (id : ℕ) : JailInv (sysJailAttach s i p id).2 := by
  unfold Proc.sysJailAttach
  split
  · exact h
  next hfound =>
    split
    · exact h
    split
    · exact h
    cases hj : jailFind s id with
    | none =>
      rw [hj] at hfound
      exact absurd rfl hfound
    | some j => exact h.enter hp hz hj

end

/-- A jail goes only when nothing was made in it that is still there. -/
def JailOk (s : JailSys) : JailAct → Prop
  | .call i (.remove euid initial id) => ∀ p j, liveProc s i = some p → jailFind s id = some j →
      (jailHostPriv s p euid initial = false →
        jailIsDescendant s p.jailId id = true ∧ p.jailId ≠ id) → j.nprocs = 0 → Childless s id
  | .reaped i => ∀ p j, s.proc i = some p → p.zombie = true → jailFind s p.jailId = some j →
      j.state = .dying → j.nprocs = 0 → Childless s p.jailId
  | _ => True

theorem JailInv.jailRemove (h : JailInv s) (hp : liveProc s i = some p) {euid : UInt32}
    {initial : Bool} {id : ℕ} (hok : JailOk s (.call i (.remove euid initial id))) :
    JailInv (jailRemove s id p euid initial).2 := by
  unfold Proc.jailRemove
  split
  · exact h
  next j hj =>
    split
    · exact h
    next hmay =>
    split
    · next hn =>
      exact h.remove hj hn (hok p j hp hj (fun hno => not_not.mp fun h => hmay ⟨hno, h⟩) hn)
    · exact h.retire hj

theorem JailInv.jailReap (h : JailInv s)
    (hok : ∀ j, jailFind s k = some j → j.state = .dying → j.nprocs = 0 → Childless s k) :
    JailInv (jailReap s k) := by
  unfold Proc.jailReap modJail
  split
  · exact h
  next j hj =>
    dsimp only
    split
    · next hdead => exact h.remove hj hdead.2 (hok j hj hdead.1 hdead.2)
    · obtain ⟨-, -, hself, -⟩ := jailFind_some hj
      have hsame : setJail s k j = s := by
        unfold setJail
        rw [hself, update_eq_self]
      rwa [hsame]

theorem liveProc_some (h : liveProc s i = some p) : s.proc i = some p ∧ p.zombie = false := by
  obtain ⟨hp, hz⟩ := Option.filter_eq_some_iff.mp h
  exact ⟨hp, by simpa using hz⟩

section

variable (h : JailInv s)
include h

theorem JailInv.step {act : JailAct} (hok : JailOk s act) : JailInv (jailStep s act) := by
  cases act with
  | call i call =>
    unfold jailStep
    dsimp only
    split
    · exact h
    next p hlive =>
      obtain ⟨hp, hz⟩ := liveProc_some hlive
      cases call with
      | create euid initial readable cfg => exact h.sysJailCreate hp hz _ _ _ _
      | attach id => exact h.sysJailAttach hp hz id
      | remove euid initial id => exact h.jailRemove hlive hok
      | setAuto euid initial on =>
        show JailInv (if jailHostPriv s p euid initial = false then (-eperm, s)
          else (0, { s with auto := on })).2
        split
        · exact h
        · exact h.auto on
      | execve => exact h.execIsolate hp hz
      | fork child => exact h.fork hp hz child
      | exit => exact h.exit hp hz
  | reaped i =>
    unfold jailStep
    dsimp only
    split
    · exact h
    next p hp =>
      obtain ⟨hp, hz⟩ := Option.filter_eq_some_iff.mp hp
      exact (h.reaped hp hz).jailReap fun j hj => hok p j hp hz hj

def InChain (s : JailSys) (u t : ℕ) : Prop := ∃ n, s.creator^[n + 1] t = u

inductive ReachesHost (s : JailSys) : ℕ → Prop
  | host : ReachesHost s jailHost
  | up {k : ℕ} {j : Jail} : jailFind s k = some j → ReachesHost s j.parentId → ReachesHost s k

def Rooted (s : JailSys) : Prop := ∀ k j, jailFind s k = some j → ReachesHost s k

theorem JailInv.rooted : Rooted s := by
  -- the one a jail was made in is older
  have hall : ∀ n k j, jailFind s k = some j → j.serial = n → ReachesHost s k := by
    intro n
    induction n using Nat.strong_induction_on with
    | _ n ih =>
      intro k j hj hn
      refine .up hj ?_
      rcases h.parent hj with ⟨hhost, -⟩ | ⟨pj, hpj, hs⟩
      · rw [hhost]
        exact .host
      · have hlt := h.down j.serial (h.older hj).1
        exact ih pj.serial (by rw [hs, ← hn]; exact hlt) j.parentId pj hpj rfl
  exact fun k j hj => hall j.serial k j hj rfl

theorem JailInv.inChain_host {t : ℕ} (ht : 0 < t) : InChain s 0 t := by
  induction t using Nat.strong_induction_on with
  | _ t ih =>
    have hlt := h.down t ht
    by_cases hzero : s.creator t = 0
    · exact ⟨0, hzero⟩
    · obtain ⟨n, hn⟩ := ih (s.creator t) hlt (Nat.pos_of_ne_zero hzero)
      exact ⟨n + 1, hn⟩

theorem JailInv.descends {a : ℕ} (ha : a ≠ 0) (guard : ℕ) {b : ℕ} {jb : Jail}
    (hb : jailFind s b = some jb) (hd : descends s a guard b = true) :
    ∃ ja, jailFind s a = some ja ∧ InChain s ja.serial jb.serial := by
  induction guard generalizing b jb with
  | zero => cases hd
  | succ guard ih =>
    unfold Proc.descends at hd
    split at hd
    · cases hd
    rw [hb] at hd
    dsimp only at hd
    rcases h.parent hb with ⟨hhost, -⟩ | ⟨pj, hpj, hs⟩
    · rw [hhost] at hd
      rcases Bool.or_eq_true_iff.mp hd with heq | hup
      · exact absurd (beq_iff_eq.mp heq).symm ha
      · cases guard <;> simp [Proc.descends, jailHost] at hup
    · rcases Bool.or_eq_true_iff.mp hd with heq | hup
      · rw [beq_iff_eq] at heq
        rw [heq] at hpj
        exact ⟨pj, hpj, 0, hs.symm⟩
      · obtain ⟨ja, hja, n, hn⟩ := ih hpj hup
        refine ⟨ja, hja, n + 1, ?_⟩
        rw [hs] at hn
        exact hn

theorem JailInv.inChain (hp : s.proc i = some p) (hz : p.zombie = false)
    (hj : jailFind s k = some j) (hd : jailIsDescendant s p.jailId k = true) :
    p.jailId = k ∨ InChain s p.serial j.serial := by
  unfold jailIsDescendant at hd
  rcases h.home hp hz with ⟨hid, hs⟩ | ⟨x, hx, hs⟩
  · rw [hs]
    exact .inr (h.inChain_host (h.older hj).1)
  · rw [Bool.or_eq_true, Bool.or_eq_true, beq_iff_eq, beq_iff_eq] at hd
    have hne := (jailFind_some hx).1
    rcases hd with (heq | hhost) | hd
    · exact .inl heq
    · exact absurd hhost hne
    · obtain ⟨ja, hja, hchain⟩ := h.descends hne _ hj hd
      rw [hx] at hja
      cases hja
      rw [← hs]
      exact .inr hchain

/-- An attach leads to a jail made in the caller's, or to that jail itself; one without privilege
removes only jails made in its own. -/
def JailSafe (s : JailSys) : JailAct → Prop
  | .call i (.attach id) => ∀ p j, liveProc s i = some p → jailFind s id = some j →
      (sysJailAttach s i p id).1 = 0 → p.jailId = id ∨ InChain s p.serial j.serial
  | .call i (.remove euid initial id) => ∀ p j, liveProc s i = some p → jailFind s id = some j →
      jailHostPriv s p euid initial = false → (jailRemove s id p euid initial).1 = 0 →
        InChain s p.serial j.serial
  | _ => True

theorem JailInv.safe (act : JailAct) : JailSafe s act := by
  cases act with
  | reaped i => trivial
  | call i call =>
    cases call with
    | attach id =>
      intro p j hp hj hrc
      obtain ⟨hp, hz⟩ := liveProc_some hp
      apply h.inChain hp hz hj
      unfold Proc.sysJailAttach at hrc
      split at hrc
      · cases hrc
      split at hrc
      · cases hrc
      next hd => simpa using hd
    | remove euid initial id =>
      intro p j hp hj hpriv hrc
      obtain ⟨hp, hz⟩ := liveProc_some hp
      unfold Proc.jailRemove at hrc
      rw [hj] at hrc
      dsimp only at hrc
      split at hrc
      · cases hrc
      next hd =>
        have hd : jailIsDescendant s p.jailId id = true ∧ p.jailId ≠ id := by
          by_contra hno
          exact hd ⟨hpriv, hno⟩
        exact (h.inChain hp hz hj hd.1).resolve_left hd.2
    | create => trivial
    | setAuto => trivial
    | execve => trivial
    | fork => trivial
    | exit => trivial

end

structure JailStart (s : JailSys) : Prop where
  jails : ∀ k, (s.jails k).state = .unused
  procs : ∀ i p, s.proc i = some p → p.jailId = 0 ∧ p.serial = 0
  serials : s.nextSerial = 1 ∧ s.creator = fun _ => 0

theorem JailStart.inv (h : JailStart s) : JailInv s := by
  have hnone : ∀ k, jailFind s k = none := by
    intro k
    unfold jailFind
    rw [if_pos (.inr (.inr (h.jails k)))]
  have hno : ∀ {k j}, jailFind s k ≠ some j := fun hj => nomatch (hnone _).symm.trans hj
  refine ⟨fun hp _ => .inl (h.procs _ _ hp), fun hj => absurd hj hno, fun hj => absurd hj hno,
    fun hj => absurd hj hno, ?_, ?_⟩
  · intro n hn
    rw [h.serials.2]
    exact hn
  · rw [h.serials.1]
    exact Nat.one_pos

/-- As long as no jail goes before those made in it, nobody gets out of the jail it is in, and the
parents of every jail lead to the host. -/
theorem jail_no_escape (h : JailStart s) {acts : List JailAct}
    (hok : Along jailStep JailOk s acts) :
    Along jailStep JailSafe s acts ∧ Always jailStep Rooted s acts := by
  have hinv : Always jailStep JailInv s acts :=
    Along.always hok h.inv fun t act ht hact => ht.step hact
  constructor
  · intro pre act hpre
    exact (hinv pre ((List.prefix_append pre [act]).trans hpre)).safe act
  · exact fun pre hpre => (hinv pre hpre).rooted

/-- In such a run no process is in a jail that is gone, and every jail counts its processes. -/
theorem jails_counted (h : JailStart s) {acts : List JailAct} (hok : Along jailStep JailOk s acts) :
    Always jailStep JailInv s acts :=
  hok.always h.inv fun _ _ ht hact => ht.step hact

end

def bootJails : JailSys where
  jails := fun _ => ⟨.unused, 0, 0, [], 0, 0, 0⟩
  auto := false
  proc := fun i => if i.val < 3 then some ⟨0, true, false, 0⟩ else none
  nextSerial := 1
  creator := fun _ => 0

theorem bootJails_start : JailStart bootJails := by
  refine ⟨fun _ => rfl, ?_, rfl, rfl⟩
  intro i p hp
  change (if i.val < 3 then some ⟨0, true, false, 0⟩ else none) = some p at hp
  split at hp
  · cases hp
    exact ⟨rfl, rfl⟩
  · cases hp

def makeJail (i : Fin procMax) (flags : UInt32) : JailAct :=
  .call i (.create 0 true true ⟨[], flags, 0, true⟩)

theorem jail_no_escape_nested :
    Along jailStep JailSafe bootJails [makeJail 1 0, makeJail 1 jailfAll, .call 0 (.attach 2)] ∧
      Always jailStep Rooted bootJails
        [makeJail 1 0, makeJail 1 jailfAll, .call 0 (.attach 2)] := by
  apply jail_no_escape bootJails_start
  intro pre act hpre
  have hact := hpre.subset (List.mem_append_right pre List.mem_cons_self)
  simp only [List.mem_cons, List.not_mem_nil, or_false] at hact
  rcases hact with rfl | rfl | rfl <;> trivial

theorem jails_counted_fork :
    Always jailStep JailInv bootJails [makeJail 1 0, .call 1 (.fork 5), .call 1 .exit] := by
  refine jails_counted bootJails_start (along_cons.mpr ⟨trivial, ?_⟩)
  exact along_cons.mpr ⟨trivial, along_cons.mpr ⟨trivial, along_nil⟩⟩

def reuseParent : List JailAct :=
  [makeJail 1 0, makeJail 1 jailfAll, .call 0 (.remove 0 true 1), makeJail 2 jailfAll]

/-- A process in the new jail then gets into the child of the old one. -/
theorem reused_id_lets_in :
    ¬ Along jailStep JailSafe bootJails (reuseParent ++ [.call 2 (.attach 2)]) := by
  intro h
  set s := exec jailStep bootJails reuseParent with hs
  have hp : liveProc s 2 = some ⟨1, false, false, 3⟩ := by decide +kernel
  have hj : (jailFind s 2).map serial = some 2 := by decide +kernel
  obtain ⟨j, hj, hserial⟩ := Option.map_eq_some_iff.mp hj
  have hrc : (sysJailAttach s 2 ⟨1, false, false, 3⟩ 2).1 = 0 := by decide +kernel
  have hup : s.creator 2 = 1 ∧ s.creator 1 = 0 ∧ s.creator 0 = 0 := by decide +kernel
  have hchain : ∀ n, s.creator^[n + 1] 2 = 1 ∨ s.creator^[n + 1] 2 = 0 := by
    intro n
    induction n with
    | zero => exact .inl hup.1
    | succ n ih =>
      rw [Function.iterate_succ_apply']
      rcases ih with ih | ih
      · rw [ih]
        exact .inr hup.2.1
      · rw [ih]
        exact .inr hup.2.2
  have hsafe := h reuseParent (.call 2 (.attach 2)) List.prefix_rfl
  rcases hsafe _ j hp hj hrc with hid | ⟨n, hn⟩
  · cases hid
  · rw [hserial] at hn
    rcases hchain n with hc | hc
    · rw [hc] at hn
      cases hn
    · rw [hc] at hn
      cases hn

end Kyronix.Proc
