import Kyronix.Lib.BitSet
import Kyronix.Lib.Family
import Kyronix.Proc.Cred

/-! The capability sets of a process (`cred.c`, `syscall.c`), over all processes that descend from
one. -/
namespace Kyronix.Proc

open Lib.BitSet Lib.Lineage Lib.Run

structure CapProc extends Cred where
  capInheritable : UInt64
  capBounding : UInt64
  noNewPrivs : Bool

def capLastCap : UInt64 := 40
def capFullMask : UInt64 := (1 <<< (capLastCap + 1)) - 1

variable (p : CapProc)

def credHasCap (cap : UInt64) : Bool :=
  cap ≤ capLastCap && p.capEffective &&& 1 <<< cap != 0

/-- `self` tells whether the header names the caller. -/
def sysCapset (readable : Bool) (version : UInt32) (self : Bool)
    (effective permitted inheritable : UInt64) : ℤ × CapProc :=
  if readable = false then (-efault, p)
  else if version ≠ 0x20080522 then (-einval, p)
  else if self = false then (-eperm, p)
  else if effective &&& ~~~ permitted ≠ 0 then (-eperm, p)
  else if permitted &&& ~~~ p.capPermitted ≠ 0 then (-eperm, p)
  else if inheritable &&& ~~~ (p.capInheritable ||| p.capPermitted) ≠ 0 then (-eperm, p)
  else
    let permitted := permitted &&& capFullMask
    let inheritable := inheritable &&& capFullMask
    (0, { p with
      capEffective := effective &&& capFullMask
      capPermitted := permitted
      capInheritable := inheritable
      capAmbient := p.capAmbient &&& (inheritable &&& permitted) })

def prCapAmbient (a2 a3 : UInt64) : ℤ × CapProc :=
  if a2 = 4 then (0, { p with capAmbient := 0 })
  else if a3 > capLastCap then (-einval, p)
  else
    let bit := 1 <<< a3
    if a2 = 1 then (if p.capAmbient &&& bit ≠ 0 then 1 else 0, p)
    else if a2 = 2 then
      if p.capInheritable &&& bit = 0 ∨ p.capPermitted &&& bit = 0 then (-eperm, p)
      else (0, { p with capAmbient := p.capAmbient ||| bit })
    else if a2 = 3 then (0, { p with capAmbient := p.capAmbient &&& ~~~ bit })
    else (-einval, p)

/-- `sys_prctl`; options that touch none of these fields are left out. -/
def sysPrctl (op a2 a3 a4 a5 : UInt64) : ℤ × CapProc :=
  if op.toUInt32 = 8 then
    if a2 > 1 then (-einval, p) else (0, { p with keepcaps := a2 == 1 })
  else if op.toUInt32 = 24 then
    if a2 > capLastCap then (-einval, p)
    else if credHasCap p 8 = false then (-eperm, p)
    else (0, { p with capBounding := p.capBounding &&& ~~~ (1 <<< a2) })
  else if op.toUInt32 = 38 then
    if a2 ≠ 1 ∨ a3 ≠ 0 ∨ a4 ≠ 0 ∨ a5 ≠ 0 then (-einval, p) else (0, { p with noNewPrivs := true })
  else if op.toUInt32 = 47 then prCapAmbient p a2 a3
  else (0, p)

def liftCred (r : ℤ × Cred) : ℤ × CapProc := (r.1, { p with toCred := r.2 })

/-- `loads` tells whether it gets as far as the new image. -/
def sysExecve (loads suidBit : Bool) (owner : UInt32) : CapProc :=
  if loads = true ∧ p.noNewPrivs = false ∧ suidBit = true then
    { p with suid := owner, euid := owner, fsuid := owner }
  else p

inductive CapCall
  | capset (readable : Bool) (version : UInt32) (self : Bool)
      (effective permitted inheritable : UInt64)
  | prctl (op a2 a3 a4 a5 : UInt64)
  | setuid (uid : UInt32)
  | setreuid (ruid euid : UInt32)
  | setresuid (ruid euid suid : UInt32)
  | fork (room : Bool)
  | execve (loads suidBit : Bool) (owner : UInt32)

def CapCall.own : CapCall → CapProc
  | .capset readable version self effective permitted inheritable =>
    (sysCapset p readable version self effective permitted inheritable).2
  | .prctl op a2 a3 a4 a5 => (sysPrctl p op a2 a3 a4 a5).2
  | .setuid uid => (liftCred p (sysSetuid p.toCred uid)).2
  | .setreuid ruid euid => (liftCred p (sysSetreuid p.toCred ruid euid)).2
  | .setresuid ruid euid suid => (liftCred p (sysSetresuid p.toCred ruid euid suid)).2
  | .fork _ => p
  | .execve loads suidBit owner => sysExecve p loads suidBit owner

def capStep (F : Family CapProc) (act : ℕ × CapCall) : Family CapProc :=
  match F.proc act.1 with
  | none => F
  | some p =>
    match act.2 with
    | .fork room => if room = true then F.spawn act.1 p else F
    | call => F.put act.1 (some (call.own p))

structure CapsOk (p : CapProc) : Prop where
  effective : Within p.capEffective p.capPermitted
  ambient : Within p.capAmbient p.capPermitted
  inherited : Within p.capAmbient p.capInheritable

variable {p q r : CapProc}

structure Drops (p q : Cred) : Prop where
  caps : q.capEffective = p.capEffective ∧ q.capPermitted = p.capPermitted ∧
      q.capAmbient = p.capAmbient ∨
    q.capEffective = 0 ∧ q.capPermitted = 0 ∧ q.capAmbient = 0
  keep : q.keepcaps = p.keepcaps
  left : p.keepcaps = false → p.euid = 0 → q.euid ≠ 0 → q.capPermitted = 0

theorem Drops.refl (p : Cred) : Drops p p :=
  ⟨.inl ⟨rfl, rfl, rfl⟩, rfl, fun _ h h' => absurd h h'⟩

theorem drops_credDrop {p r : Cred} (heff : r.capEffective = p.capEffective)
    (hperm : r.capPermitted = p.capPermitted) (hamb : r.capAmbient = p.capAmbient)
    (hkeep : r.keepcaps = p.keepcaps) : Drops p (credDropCapsForUid r p.euid r.euid) := by
  unfold credDropCapsForUid
  split
  · next h =>
    refine ⟨.inl ⟨heff, hperm, hamb⟩, hkeep, ?_⟩
    intro hk hold hnew
    rcases h with h | h | h
    · exact absurd hold h
    · exact absurd h hnew
    · rw [hkeep, hk] at h
      cases h
  · exact ⟨.inr ⟨rfl, rfl, rfl⟩, hkeep, fun _ _ _ => rfl⟩

theorem drops_setEuid {p r : Cred} (heff : r.capEffective = p.capEffective)
    (hperm : r.capPermitted = p.capPermitted) (hamb : r.capAmbient = p.capAmbient)
    (hkeep : r.keepcaps = p.keepcaps) (heuid : r.euid = p.euid) (euid : UInt32) :
    Drops p (setEuid r euid) := by
  unfold setEuid
  rw [heuid]
  by_cases h : euid ≠ keepId
  · rw [if_pos h]
    exact drops_credDrop heff hperm hamb hkeep
  · rw [if_neg h]
    exact drops_credDrop heff hperm hamb hkeep

theorem drops_setuid (p : Cred) (uid : UInt32) : Drops p (sysSetuid p uid).2 := by
  unfold sysSetuid
  split
  · exact drops_credDrop (r := { p with uid := uid, euid := uid, suid := uid, fsuid := uid })
      rfl rfl rfl rfl
  split
  · exact .refl p
  · exact drops_credDrop (r := { p with euid := uid, fsuid := uid }) rfl rfl rfl rfl

theorem drops_store (p : Cred) (ruid euid : UInt32) : Drops p (setEuid (setRuid p ruid) euid) := by
  unfold setRuid
  split
  · exact drops_setEuid (p := p) (r := { p with uid := ruid }) rfl rfl rfl rfl rfl euid
  · exact drops_setEuid (p := p) rfl rfl rfl rfl rfl euid

theorem drops_setreuid (p : Cred) (ruid euid : UInt32) : Drops p (sysSetreuid p ruid euid).2 := by
  have hstore := drops_store p ruid euid
  unfold sysSetreuid
  split
  · exact .refl p
  split
  · exact .refl p
  · exact ⟨hstore.caps, hstore.keep, hstore.left⟩

theorem drops_setresuid (p : Cred) (ruid euid suid : UInt32) :
    Drops p (sysSetresuid p ruid euid suid).2 := by
  have hstore := drops_store p ruid euid
  unfold sysSetresuid
  dsimp only
  split
  · exact .refl p
  · unfold setSuid
    split
    · exact ⟨hstore.caps, hstore.keep, hstore.left⟩
    · exact hstore

theorem CapsOk.congr (h : CapsOk p) (he : q.capEffective = p.capEffective)
    (hp : q.capPermitted = p.capPermitted) (ha : q.capAmbient = p.capAmbient)
    (hi : q.capInheritable = p.capInheritable) : CapsOk q := by
  refine ⟨?_, ?_, ?_⟩
  · rw [he, hp]
    exact h.effective
  · rw [ha, hp]
    exact h.ambient
  · rw [ha, hi]
    exact h.inherited

theorem CapsOk.drops (h : CapsOk p) {c : Cred} (hc : Drops p.toCred c) :
    CapsOk { p with toCred := c } := by
  rcases hc.caps with ⟨he, hp, ha⟩ | ⟨he, hp, ha⟩
  · exact h.congr he hp ha rfl
  · exact ⟨he.symm ▸ within_zero _, ha.symm ▸ within_zero _, ha.symm ▸ within_zero _⟩

theorem Drops.spec {p q : Cred} {c d : Prop} (h : Drops p q) :
    Within q.capPermitted p.capPermitted ∧
      (p.keepcaps = false → c → q.keepcaps = false) ∧
      (p.keepcaps = false → d → p.euid = 0 → q.euid ≠ 0 → q.capPermitted = 0) := by
  refine ⟨?_, fun hk _ => h.keep.trans hk, fun hk _ => h.left hk⟩
  rcases h.caps with ⟨-, hp, -⟩ | ⟨-, hp, -⟩ <;> rw [hp]
  · exact within_refl _
  · exact within_zero _

theorem sysCapset_cases (p : CapProc) (readable : Bool) (version : UInt32) (self : Bool)
    (effective permitted inheritable : UInt64) :
    (sysCapset p readable version self effective permitted inheritable).2 = p ∨
      Within effective permitted ∧ Within permitted p.capPermitted ∧
        (sysCapset p readable version self effective permitted inheritable).2 = { p with
          capEffective := effective &&& capFullMask
          capPermitted := permitted &&& capFullMask
          capInheritable := inheritable &&& capFullMask
          capAmbient := p.capAmbient &&&
            ((inheritable &&& capFullMask) &&& (permitted &&& capFullMask)) } := by
  unfold sysCapset
  split
  · exact .inl rfl
  split
  · exact .inl rfl
  split
  · exact .inl rfl
  split
  · exact .inl rfl
  next heff =>
    split
    · exact .inl rfl
    next hperm =>
      split
      · exact .inl rfl
      · exact .inr ⟨not_not.mp heff, not_not.mp hperm, rfl⟩

theorem CapsOk.capset (h : CapsOk p) (readable : Bool) (version : UInt32) (self : Bool)
    (effective permitted inheritable : UInt64) :
    CapsOk (sysCapset p readable version self effective permitted inheritable).2 := by
  rcases sysCapset_cases p readable version self effective permitted inheritable with
    heq | ⟨heff, -, heq⟩
  · rwa [heq]
  · rw [heq]
    refine ⟨heff.mask _, ?_, ?_⟩
    · exact (within_and_right _ _).trans (within_and_right _ _)
    · exact (within_and_right _ _).trans (within_and_left _ _)

theorem CapsOk.ambient_call (h : CapsOk p) (a2 a3 : UInt64) : CapsOk (prCapAmbient p a2 a3).2 := by
  unfold prCapAmbient
  split
  · exact ⟨h.effective, within_zero _, within_zero _⟩
  split
  · exact h
  next hcap =>
    have hlt : a3.toNat < 64 := by
      have hle := UInt64.le_iff_toNat_le.mp (UInt64.not_lt.mp hcap)
      exact Nat.lt_of_le_of_lt hle (by decide)
    dsimp only
    split
    · exact h
    split
    · split
      · exact h
      next hbit =>
        rw [not_or] at hbit
        exact ⟨h.effective, within_or h.ambient (within_bit hlt hbit.2),
          within_or h.inherited (within_bit hlt hbit.1)⟩
    split
    · exact ⟨h.effective, (within_and_left _ _).trans h.ambient,
        (within_and_left _ _).trans h.inherited⟩
    · exact h

theorem prCapAmbient_same (p : CapProc) (a2 a3 : UInt64) :
    (prCapAmbient p a2 a3).2.capPermitted = p.capPermitted ∧
      (prCapAmbient p a2 a3).2.euid = p.euid ∧
      (prCapAmbient p a2 a3).2.keepcaps = p.keepcaps := by
  unfold prCapAmbient
  dsimp only
  split_ifs <;> exact ⟨rfl, rfl, rfl⟩

theorem sysPrctl_same (p : CapProc) (op a2 a3 a4 a5 : UInt64) :
    (sysPrctl p op a2 a3 a4 a5).2.capPermitted = p.capPermitted ∧
      (sysPrctl p op a2 a3 a4 a5).2.euid = p.euid ∧
      (p.keepcaps = false → ¬ (op.toUInt32 = 8 ∧ a2 = 1) →
        (sysPrctl p op a2 a3 a4 a5).2.keepcaps = false) := by
  unfold sysPrctl
  split
  · next hop =>
    split
    · exact ⟨rfl, rfl, fun h _ => h⟩
    · refine ⟨rfl, rfl, fun _ hno => ?_⟩
      show (a2 == 1) = false
      exact beq_eq_false_iff_ne.mpr fun ha => hno ⟨hop, ha⟩
  split
  · split_ifs <;> exact ⟨rfl, rfl, fun h _ => h⟩
  split
  · split_ifs <;> exact ⟨rfl, rfl, fun h _ => h⟩
  split
  · obtain ⟨hperm, heuid, hkeep⟩ := prCapAmbient_same p a2 a3
    exact ⟨hperm, heuid, fun h _ => hkeep.trans h⟩
  · exact ⟨rfl, rfl, fun h _ => h⟩

theorem CapsOk.prctl (h : CapsOk p) (op a2 a3 a4 a5 : UInt64) :
    CapsOk (sysPrctl p op a2 a3 a4 a5).2 := by
  unfold sysPrctl
  split
  · split <;> exact h.congr rfl rfl rfl rfl
  split
  · split
    · exact h
    · split <;> exact h.congr rfl rfl rfl rfl
  split
  · split <;> exact h.congr rfl rfl rfl rfl
  split
  · exact h.ambient_call a2 a3
  · exact h

theorem CapsOk.execve (h : CapsOk p) (loads suidBit : Bool) (owner : UInt32) :
    CapsOk (sysExecve p loads suidBit owner) := by
  unfold sysExecve
  split
  · exact ⟨h.effective, h.ambient, h.inherited⟩
  · exact h

theorem CapsOk.own (h : CapsOk p) (call : CapCall) : CapsOk (call.own p) := by
  cases call with
  | capset readable version self effective permitted inheritable => exact h.capset _ _ _ _ _ _
  | prctl op a2 a3 a4 a5 => exact h.prctl _ _ _ _ _
  | setuid uid => exact h.drops (drops_setuid _ uid)
  | setreuid ruid euid => exact h.drops (drops_setreuid _ ruid euid)
  | setresuid ruid euid suid => exact h.drops (drops_setresuid _ ruid euid suid)
  | fork room => exact h
  | execve loads suidBit owner => exact h.execve _ _ _

def CapCall.SetsKeepcaps : CapCall → Prop
  | .prctl op a2 _ _ _ => op.toUInt32 = 8 ∧ a2 = 1
  | _ => False

/-- Root does not become another user by running a set-uid file, or it has no capability left. -/
def CapOk (p : CapProc) : CapCall → Prop
  | .execve loads suidBit owner =>
    loads = true → p.noNewPrivs = false → suidBit = true → p.euid = 0 → owner ≠ 0 →
      p.capPermitted = 0
  | _ => True

theorem own_spec (p : CapProc) (call : CapCall) :
    Within (call.own p).capPermitted p.capPermitted ∧
      (p.keepcaps = false → ¬ call.SetsKeepcaps → (call.own p).keepcaps = false) ∧
      (p.keepcaps = false → CapOk p call → p.euid = 0 → (call.own p).euid ≠ 0 →
        (call.own p).capPermitted = 0) := by
  cases call with
  | capset readable version self effective permitted inheritable =>
    unfold CapCall.own
    dsimp only
    rcases sysCapset_cases p readable version self effective permitted inheritable with
      heq | ⟨-, hperm, heq⟩ <;> rw [heq]
    · exact ⟨within_refl _, fun h _ => h, fun _ _ h h' => absurd h h'⟩
    · exact ⟨(within_and_left _ _).trans hperm, fun h _ => h, fun _ _ h h' => absurd h h'⟩
  | prctl op a2 a3 a4 a5 =>
    obtain ⟨hperm, heuid, hkeep⟩ := sysPrctl_same p op a2 a3 a4 a5
    refine ⟨?_, hkeep, fun _ _ h h' => absurd (heuid.trans h) h'⟩
    exact hperm.symm ▸ within_refl _
  | setuid uid => exact (drops_setuid p.toCred uid).spec
  | setreuid ruid euid => exact (drops_setreuid p.toCred ruid euid).spec
  | setresuid ruid euid suid => exact (drops_setresuid p.toCred ruid euid suid).spec
  | fork room => exact ⟨within_refl _, fun h _ => h, fun _ _ h h' => absurd h h'⟩
  | execve loads suidBit owner =>
    unfold CapCall.own sysExecve
    dsimp only
    split
    · next h => exact ⟨within_refl _, fun h _ => h, fun _ hok => hok h.1 h.2.1 h.2.2⟩
    · exact ⟨within_refl _, fun h _ => h, fun _ _ h h' => absurd h h'⟩

theorem capStep_step {R : CapProc → CapProc → Prop} (hrefl : ∀ p, R p p) {F : Family CapProc}
    {act : ℕ × CapCall} (hown : ∀ p, F.proc act.1 = some p → R p (act.2.own p)) :
    Step R F (capStep F act) := by
  unfold capStep
  split
  · exact .stay F
  next p hp =>
    split
    · split
      · exact .fork hp (hrefl p)
      · exact .stay F
    · exact .go hp (hown p hp)

theorem caps_all {Q : CapProc → Prop} {C : ℕ × CapCall → Prop}
    (hown : ∀ p call i, Q p → C (i, call) → Q (call.own p)) {F : Family CapProc}
    (h : ∀ i p, F.proc i = some p → Q p) (acts : List (ℕ × CapCall)) (hacts : ∀ a ∈ acts, C a) :
    Always capStep (fun G => ∀ i p, G.proc i = some p → Q p) F acts := by
  have halong : Along capStep (fun _ a => C a) F acts := by
    intro pre a hp
    exact hacts a (hp.subset (List.mem_append_right _ List.mem_cons_self))
  refine Along.always halong h ?_
  rintro G ⟨i, call⟩ hG hC
  exact (capStep_step (R := fun p q => Q p → Q q) (fun _ => id)
    fun p _ hp => hown p call i hp hC).all (fun _ _ hR => hR) hG

def Keeps (p q : CapProc) : Prop := Within q.capPermitted p.capPermitted

def Leaves (p q : CapProc) : Prop :=
  Within q.capPermitted p.capPermitted ∧ (p.euid = 0 → q.euid ≠ 0 → q.capPermitted = 0)

theorem Leaves.trans (h : Leaves p q) (h' : Leaves q r) : Leaves p r := by
  refine ⟨h'.1.trans h.1, ?_⟩
  intro hp hr
  by_cases hq : q.euid = 0
  · exact h'.2 hq hr
  · have hwithin := h'.1
    rw [h.2 hp hq] at hwithin
    exact hwithin.eq_zero

/-- The sets stay nested, no process has a permitted capability that one it descends from did not
have, and one that was root and is not has none, unless it asked to keep them. -/
theorem capability_sets_nested {F : Family CapProc} {acts : List (ℕ × CapCall)} (hF : F.Wf)
    (hstart : ∀ i p, F.proc i = some p → CapsOk p) :
    (∀ i p, (exec capStep F acts).proc i = some p → CapsOk p) ∧
    (∀ i j p q, F.proc i = some p → Later F.next (exec capStep F acts) i j →
      (exec capStep F acts).proc j = some q → Within q.capPermitted p.capPermitted) ∧
    ((∀ i p, F.proc i = some p → p.keepcaps = false) → (∀ a ∈ acts, ¬ a.2.SetsKeepcaps) →
      Along capStep (fun G a => ∀ p, G.proc a.1 = some p → CapOk p a.2) F acts →
      ∀ i j p q, F.proc i = some p → Later F.next (exec capStep F acts) i j →
        (exec capStep F acts).proc j = some q → p.euid = 0 → q.euid ≠ 0 →
        q.capPermitted = 0) := by
  refine ⟨?_, ?_, ?_⟩
  · have hall := caps_all (C := fun _ => True) (fun p call _ hp _ => hp.own call) hstart
      acts (fun _ _ => trivial)
    exact hall acts List.prefix_rfl
  · intro i j p q hp hlater hq
    have hok : Along capStep (fun _ _ => True) F acts := fun _ _ _ => trivial
    have hrefl : ∀ p, Keeps p p := fun _ => within_refl _
    have hstep : ∀ G a, True → Step Keeps G (capStep G a) :=
      fun G a _ => capStep_step hrefl fun p _ => (own_spec p a.2).1
    exact passed_run hstep hrefl (fun h h' => h'.trans h) hF hp hok j q hlater hq
  · intro hkeep hsets hok i j p q hp hlater hq hold hnew
    have hnever := caps_all (Q := fun p => p.keepcaps = false) (C := fun a => ¬ a.2.SetsKeepcaps)
      (fun p call _ hp hC => (own_spec p call).2.1 hp hC) hkeep acts hsets
    set C := fun (G : Family CapProc) (a : ℕ × CapCall) =>
      (∀ i p, G.proc i = some p → p.keepcaps = false) ∧ ∀ p, G.proc a.1 = some p → CapOk p a.2
      with hC
    have hboth : Along capStep C F acts := by
      intro pre a hpre
      exact ⟨hnever pre ((List.prefix_append pre [a]).trans hpre), hok pre a hpre⟩
    have hrefl : ∀ p, Leaves p p := fun p => ⟨within_refl _, fun h h' => absurd h h'⟩
    have hstep : ∀ G a, C G a → Step Leaves G (capStep G a) :=
      fun G a hC => capStep_step hrefl fun p hp =>
        ⟨(own_spec p a.2).1, (own_spec p a.2).2.2 (hC.1 a.1 p hp) (hC.2 p hp)⟩
    exact (passed_run hstep hrefl Leaves.trans hF hp hboth j q hlater hq).2 hold hnew

def hostRoot : CapProc :=
  { uid := 0, euid := 0, suid := 0, fsuid := 0, capEffective := capFullMask,
    capPermitted := capFullMask, capAmbient := 0, keepcaps := false, isThread := false,
    userNs := initUserNs, capInheritable := capFullMask, capBounding := capFullMask,
    noNewPrivs := false }

theorem capability_sets_nested_setuid :
    ∃ q, (exec capStep (.one hostRoot) [(0, .fork true), (1, .setuid 1000)]).proc 1 = some q ∧
      q.euid = 1000 ∧ q.capPermitted = 0 := by
  have hstart : ∀ i p, (Family.one hostRoot).proc i = some p → CapsOk p := by
    intro i p hp
    rw [(Family.one_proc hp).2]
    exact ⟨by decide, by decide, by decide⟩
  have hall := @capability_sets_nested _ [(0, .fork true), (1, .setuid 1000)]
    (Family.one_wf hostRoot) hstart
  refine ⟨{ hostRoot with
    uid := 1000, euid := 1000, suid := 1000, fsuid := 1000,
    capEffective := 0, capPermitted := 0 }, rfl, rfl, ?_⟩
  apply hall.2.2 _ _ _ 0 1 hostRoot _ rfl (.child .self rfl (Nat.le_refl 1)) rfl rfl (by decide)
  · intro i p hp
    rw [(Family.one_proc hp).2]
    rfl
  · intro a ha
    rcases List.mem_pair.mp ha with rfl | rfl <;> exact id
  · intro pre a hpre p _
    have ha := hpre.subset (List.mem_append_right pre List.mem_cons_self)
    rcases List.mem_pair.mp ha with rfl | rfl <;> exact trivial

/-- Root that runs a set-uid file of another user keeps all its capabilities. -/
theorem setuid_exec_keeps_caps :
    ∃ q, (exec capStep (.one hostRoot) [(0, .execve true true 1000)]).proc 0 = some q ∧
      q.keepcaps = false ∧ q.euid = 1000 ∧ q.capPermitted = capFullMask :=
  ⟨{ hostRoot with suid := 1000, euid := 1000, fsuid := 1000 }, rfl, rfl, rfl, rfl⟩

end Kyronix.Proc
