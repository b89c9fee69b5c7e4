import Kyronix.Errno
import Kyronix.Lib.Family

/-! Filters of system calls (`seccomp.c`): the machine that runs a filter, the verdict of a chain of
filters, and the calls that install and inherit them. -/
namespace Kyronix.Security

open Lib.Lineage Lib.Run Option

structure Insn where
  code : UInt16
  jt : UInt8
  jf : UInt8
  k : UInt32
deriving DecidableEq

abbrev Prog := List Insn

structure Bpf where
  a : UInt32
  x : UInt32
  pc : UInt32
  mem : Fin 16 → UInt32

def retKillThread : UInt32 := 0x00000000
def retKillProcess : UInt32 := 0x80000000
def retTrap : UInt32 := 0x00030000
def retErrno : UInt32 := 0x00050000
def retUserNotif : UInt32 := 0x7fc00000
def retTrace : UInt32 := 0x7ff00000
def retLog : UInt32 := 0x7ffc0000
def retAllow : UInt32 := 0x7fff0000

def bpfLoad (data : ℕ → UInt8) (off size : UInt32) : UInt32 :=
  if off > 64 ∨ size > 64 - off then 0
  else (List.range size.toNat).foldl (fun value i =>
    value ||| (data (off.toNat + i)).toUInt32 <<< UInt32.ofNat (i * 8)) 0

def bpfStore (data : ℕ → UInt8) (off size : ℕ) (value : UInt64) : ℕ → UInt8 :=
  if off > 64 ∨ size > 64 - off then data
  else fun j => if off ≤ j ∧ j < off + size then (value >>> UInt64.ofNat ((j - off) * 8)).toUInt8
    else data j

def Bpf.cell (st : Bpf) (k : UInt32) : Option UInt32 :=
  if h : k.toNat < 16 then some (st.mem ⟨k.toNat, h⟩) else none

def Bpf.setCell (st : Bpf) (k v : UInt32) : Option Bpf :=
  if h : k.toNat < 16 then some { st with mem := Function.update st.mem ⟨k.toNat, h⟩ v } else none

def bpfAlu (op a rhs : UInt32) : Option UInt32 :=
  if op = 0x00 then some (a + rhs)
  else if op = 0x10 then some (a - rhs)
  else if op = 0x20 then some (a * rhs)
  else if op = 0x30 then if rhs = 0 then none else some (a / rhs)
  else if op = 0x40 then some (a ||| rhs)
  else if op = 0x50 then some (a &&& rhs)
  else if op = 0x60 then some (a <<< rhs)
  else if op = 0x70 then some (a >>> rhs)
  else if op = 0x80 then some (0 - a)
  else if op = 0x90 then if rhs = 0 then none else some (a % rhs)
  else if op = 0xa0 then some (a ^^^ rhs)
  else none

def bpfTake (op a rhs : UInt32) : Option Bool :=
  if op = 0x10 then some (a == rhs)
  else if op = 0x20 then some (a > rhs)
  else if op = 0x30 then some (a ≥ rhs)
  else if op = 0x40 then some (a &&& rhs != 0)
  else none

def bpfLd (data : ℕ → UInt8) (insn : Insn) (st : Bpf) : Option UInt32 :=
  let code := insn.code.toUInt32
  let size := if code &&& 0x18 = 0x00 then 4 else if code &&& 0x18 = 0x08 then 2 else 1
  let mode := code &&& 0xe0
  if mode = 0x00 then some insn.k
  else if mode = 0x20 then some (bpfLoad data insn.k size)
  else if mode = 0x40 then some (bpfLoad data (st.x + insn.k) size)
  else if mode = 0x60 then st.cell insn.k
  else if mode = 0x80 then some 64
  else none

def bpfLdx (insn : Insn) (st : Bpf) : Option UInt32 :=
  let mode := insn.code.toUInt32 &&& 0xe0
  if mode = 0x00 then some insn.k
  else if mode = 0x60 then st.cell insn.k
  else if mode = 0x80 then some 64
  else none

def bpfStep (data : ℕ → UInt8) (insn : Insn) (st : Bpf) : UInt32 ⊕ Bpf :=
  let code := insn.code.toUInt32
  let op := code &&& 0xf0
  let rhs := if code &&& 0x08 = 0x08 then st.x else insn.k
  let go := fun (o : Option Bpf) => match o with
    | none => .inl retKillProcess
    | some st => .inr { st with pc := st.pc + 1 }
  match (code &&& 0x07).toNat with
  | 0 => go ((bpfLd data insn st).map fun v => { st with a := v })
  | 1 => go ((bpfLdx insn st).map fun v => { st with x := v })
  | 2 => go (st.setCell insn.k st.a)
  | 3 => go (st.setCell insn.k st.x)
  | 4 => go ((bpfAlu op st.a rhs).map fun v => { st with a := v })
  | 5 =>
    if op = 0x00 then .inr { st with pc := st.pc + (1 + insn.k) }
    else match bpfTake op st.a rhs with
      | none => .inl retKillProcess
      | some take =>
        .inr { st with pc := st.pc + (1 + (if take then insn.jt else insn.jf).toUInt32) }
  | 6 => .inl (if op = 0x00 then insn.k else if op = 0x10 then st.a else retKillProcess)
  | _ =>
    if op = 0x00 then go (some { st with x := st.a })
    else if op = 0x80 then go (some { st with a := st.x })
    else .inl retKillProcess

def bpfInit : Bpf := ⟨0, 0, 0, fun _ => 0⟩

/-- `bpf_run` for so many instructions; a program can jump backwards and never return. -/
def bpfRun (prog : Prog) (data : ℕ → UInt8) : ℕ → Bpf → Option UInt32
  | 0, _ => none
  | fuel + 1, st =>
    match prog[st.pc.toNat]? with
    | none => some retKillProcess
    | some insn =>
      match bpfStep data insn st with
      | .inl r => some r
      | .inr st => bpfRun prog data fuel st

def insnValid (len : ℕ) (insn : Insn) (pc : ℕ) : Bool :=
  let code := insn.code.toUInt32
  let op := code &&& 0xf0
  if code &&& 0x07 = 0x05 then
    if op = 0x00 then (UInt32.ofNat pc + 1 + insn.k).toNat < len
    else if op = 0x10 ∨ op = 0x20 ∨ op = 0x30 ∨ op = 0x40 then
      pc + 1 + insn.jt.toNat < len ∧ pc + 1 + insn.jf.toNat < len
    else false
  else true

def bpfValid (prog : Prog) : Bool :=
  prog.length ≠ 0 && prog.length ≤ 4096 &&
    prog.zipIdx.all fun (insn, pc) => insnValid prog.length insn pc

def seccompBuild (prog : Prog) (mem : Bool) : Option Prog :=
  if bpfValid prog = true ∧ mem = true then some prog else none

def cloneFrom (mem : ℕ → Bool) : ℕ → List Prog → Option (List Prog)
  | _, [] => some []
  | i, f :: fs => do
    let node ← seccompBuild f (mem i)
    let rest ← cloneFrom mem (i + 1) fs
    pure (node :: rest)

-- no chain and no memory are both NULL
def seccompChainClone (mem : ℕ → Bool) (head : List Prog) : List Prog :=
  (cloneFrom mem 0 head).getD []

def actionRank (action : UInt32) : ℕ :=
  if action = retKillProcess ∨ action = retKillThread then 0
  else if action = retTrap then 1
  else if action = retErrno then 2
  else if action = retUserNotif then 3
  else if action = retTrace then 4
  else if action = retLog then 5
  else if action = retAllow then 6
  else 0

def actionOf (result : UInt32) : UInt32 := result &&& 0xffff0000

def chainStep (data : ℕ → UInt8) (fuel : ℕ) (best : UInt32) (f : Prog) : Option UInt32 :=
  (bpfRun f data fuel bpfInit).map fun result =>
    if actionRank (actionOf result) < actionRank (actionOf best) then result else best

def chainResult (data : ℕ → UInt8) (fuel : ℕ) (head : List Prog) : Option UInt32 :=
  head.foldlM (chainStep data fuel) retAllow

inductive SeccompMode
  | disabled
  | strict
  | filter
deriving DecidableEq

structure SecProc where
  mode : SeccompMode
  filters : List Prog
  noNewPrivs : Bool
deriving DecidableEq

inductive Verdict
  | pass
  | refuse
  | trap
  | kill
deriving DecidableEq

abbrev Args := Fin 6 → UInt64

def seccompData (nr : UInt64) (args : Args) : ℕ → UInt8 :=
  let data := bpfStore (fun _ => 0) 0 4 (nr &&& 0xffffffff)
  let data := bpfStore data 4 4 0xc000003e
  (List.finRange 6).foldl (fun data i => bpfStore data (16 + i.val * 8) 8 (args i)) data

def verdictOf (result : UInt32) : Verdict :=
  let action := actionOf result
  if action = retAllow ∨ action = retLog then .pass
  else if action = retErrno ∨ action = retTrace ∨ action = retUserNotif then .refuse
  else if action = retTrap then .trap
  else .kill

def strictCalls : List UInt64 := [0, 1, 15, 60, 231]

def seccompCheck (fuel : ℕ) (p : SecProc) (nr : UInt64) (args : Args) : Option Verdict :=
  match p.mode with
  | .disabled => some .pass
  | .strict => some (if nr ∈ strictCalls then .pass else .kill)
  | .filter => (chainResult (seccompData nr args) fuel p.filters).map verdictOf

def Denied (p : SecProc) (nr : UInt64) (args : Args) : Prop :=
  ∃ fuel verdict, seccompCheck fuel p nr args = some verdict ∧ verdict ≠ .pass

def seccompInstall (p : SecProc) (filter : Prog) : SecProc :=
  { p with filters := filter :: p.filters, mode := .filter }

/-- `prog` is what the pointer of the caller leads to, `admin` whether it has `CAP_SYS_ADMIN`. -/
def sysSeccompApply (p : SecProc) (mode : UInt32) (prog : Option Prog) (admin mem : Bool) :
    ℤ × SecProc :=
  if mode = 1 then (0, { p with mode := .strict })
  else if mode ≠ 2 then (-einval, p)
  else if p.noNewPrivs = false ∧ admin = false then (-eacces, p)
  else match prog with
    | none => (-efault, p)
    | some prog =>
      match seccompBuild prog mem with
      | none => (-einval, p)
      | some filter => (0, seccompInstall p filter)

/-- The operations 2 and 3 only answer a question. -/
def sysSeccomp (p : SecProc) (op flags : UInt32) (prog : Option Prog) (admin mem : Bool) :
    ℤ × SecProc :=
  if op = 0 then
    if flags ≠ 0 then (-einval, p) else sysSeccompApply p 1 none admin mem
  else if op = 1 then
    if flags &&& ~~~ 7 ≠ 0 then (-einval, p) else sysSeccompApply p 2 prog admin mem
  else if op = 2 ∨ op = 3 then (0, p)
  else (-einval, p)

/-- The options that have to do with filters; the others leave these fields alone. -/
def sysPrctl (p : SecProc) (args : Args) (prog : Option Prog) (admin mem : Bool) : ℤ × SecProc :=
  let op := (args 0).toUInt32
  if op = 22 then sysSeccompApply p (args 1).toUInt32 prog admin mem
  else if op = 38 then
    if args 1 ≠ 1 ∨ args 2 ≠ 0 ∨ args 3 ≠ 0 ∨ args 4 ≠ 0 then (-einval, p)
    else (0, { p with noNewPrivs := true })
  else (0, p)

def procSecurityInherit (parent : SecProc) (mem : ℕ → Bool) : Option SecProc :=
  let filters := seccompChainClone mem parent.filters
  if parent.filters ≠ [] ∧ filters = [] then none
  else some { mode := parent.mode, filters := filters, noNewPrivs := parent.noNewPrivs }

inductive SecCall
  | seccomp (prog : Option Prog) (admin mem : Bool)
  | prctl (prog : Option Prog) (admin mem : Bool)
  | fork (room : Bool) (mem : ℕ → Bool)
  | clone (room : Bool) (mem : ℕ → Bool)
  | execve

def SecCall.nr : SecCall → UInt64
  | .seccomp .. => 317
  | .prctl .. => 157
  | .fork .. => 57
  | .clone .. => 56
  | .execve => 59

/-- A system call of process `pid`; `fuel` bounds the time its filters take. -/
structure SecAct where
  pid : ℕ
  args : Args
  call : SecCall
  fuel : ℕ

def secCall (F : Family SecProc) (pid : ℕ) (p : SecProc) (args : Args) :
    SecCall → Family SecProc
  | .seccomp prog admin mem =>
    F.put pid (some (sysSeccomp p (args 0).toUInt32 (args 1).toUInt32 prog admin mem).2)
  | .prctl prog admin mem => F.put pid (some (sysPrctl p args prog admin mem).2)
  | .fork room mem | .clone room mem =>
    if room = false then F
    else match procSecurityInherit p mem with
      | none => F
      | some child => F.spawn pid child
  | .execve => F

def secStep (F : Family SecProc) (act : SecAct) : Family SecProc :=
  match F.proc act.pid with
  | none => F
  | some p =>
    match seccompCheck act.fuel p act.call.nr act.args with
    | some .pass => secCall F act.pid p act.args act.call
    | some .kill => F.put act.pid none
    | _ => F

def Halts (prog : Prog) : Prop := ∀ data, ∃ fuel r, bpfRun prog data fuel bpfInit = some r

variable {prog : Prog} {data : ℕ → UInt8} {p q : SecProc} {nr : UInt64} {args : Args}

def Insn.JumpsBack (insn : Insn) (pc : ℕ) : Prop :=
  insn.code.toUInt32 &&& 0x07 = 0x05 ∧ insn.code.toUInt32 &&& 0xf0 = 0x00 ∧
    2 ^ 32 ≤ pc + 1 + insn.k.toNat

variable {st : Bpf}

theorem Bpf.setCell_pc {st' : Bpf} {k v : UInt32} (h : st.setCell k v = some st') :
    st'.pc = st.pc := by
  unfold Bpf.setCell at h
  split at h
  · cases h
    rfl
  · cases h

theorem bpfStep_forward {insn : Insn} {st' : Bpf} (h : bpfStep data insn st = .inr st')
    (hlt : st.pc.toNat < 4096) (hback : ¬ insn.JumpsBack st.pc.toNat) :
    st.pc.toNat < st'.pc.toNat := by
  have hadd : ∀ d : UInt32, st.pc.toNat + 1 + d.toNat < 2 ^ 32 →
      st.pc.toNat < (st.pc + (1 + d)).toNat := by
    intro d hd
    rw [UInt32.toNat_add, UInt32.toNat_add, UInt32.toNat_one]
    omega
  have hshort : ∀ d : UInt8, st.pc.toNat < (st.pc + (1 + d.toUInt32)).toNat := by
    intro d
    apply hadd
    have hd := d.toNat_lt
    rw [UInt8.toNat_toUInt32]
    omega
  -- all but the jumps go to the next instruction
  have hnext : ∀ {t : Bpf}, t.pc = st.pc → st.pc.toNat < (t.pc + 1).toNat := by
    intro t ht
    rw [ht, UInt32.toNat_add, UInt32.toNat_one]
    omega
  have hgo : ∀ {o : Option Bpf}, (match o with
        | none => .inl retKillProcess
        | some st => .inr { st with pc := st.pc + 1 } : UInt32 ⊕ Bpf) = .inr st' →
      (∀ t, o = some t → t.pc = st.pc) → st.pc.toNat < st'.pc.toNat := by
    intro o h ho
    split at h
    · cases h
    · cases h
      exact hnext (ho _ rfl)
  have hmap : ∀ {o : Option UInt32} {f : UInt32 → Bpf}, (∀ v, (f v).pc = st.pc) →
      ∀ t, o.map f = some t → t.pc = st.pc := by
    intro o f hf t ht
    obtain ⟨v, -, rfl⟩ := map_eq_some_iff.mp ht
    exact hf v
  unfold bpfStep at h
  dsimp only at h
  split at h
  · exact hgo h (hmap fun _ => rfl)
  · exact hgo h (hmap fun _ => rfl)
  · exact hgo h fun _ => Bpf.setCell_pc
  · exact hgo h fun _ => Bpf.setCell_pc
  · exact hgo h (hmap fun _ => rfl)
  · next hcls =>
    split at h
    · next hop =>
      cases h
      apply hadd
      by_contra hge
      exact hback ⟨UInt32.toNat_inj.mp hcls, hop, Nat.not_lt.mp hge⟩
    · split at h
      · cases h
      · cases h
        exact hshort _
  · cases h
  · split at h
    · cases h
      exact hnext rfl
    · split at h
      · cases h
        exact hnext rfl
      · cases h

theorem bpfRun_returns (data : ℕ → UInt8) (hlen : prog.length ≤ 4096)
    (hback : ∀ (pc : ℕ) (insn : Insn), prog[pc]? = some insn → ¬ insn.JumpsBack pc) (fuel : ℕ)
    (st : Bpf) (hfuel : prog.length ≤ st.pc.toNat + fuel) :
    ∃ r, bpfRun prog data (fuel + 1) st = some r := by
  induction fuel generalizing st with
  | zero =>
    refine ⟨retKillProcess, ?_⟩
    unfold bpfRun
    rw [List.getElem?_eq_none (by omega)]
  | succ fuel ih =>
    unfold bpfRun
    split
    · exact ⟨_, rfl⟩
    next insn hinsn =>
      split
      · exact ⟨_, rfl⟩
      next st' hgo =>
        have hlt : st.pc.toNat < prog.length := (List.getElem?_eq_some_iff.mp hinsn).1
        have hmore := bpfStep_forward hgo (Nat.lt_of_lt_of_le hlt hlen) (hback _ insn hinsn)
        exact ih st' (by omega)

theorem halts_of_forward (hlen : prog.length ≤ 4096)
    (hback : ∀ (pc : ℕ) (insn : Insn), prog[pc]? = some insn → ¬ insn.JumpsBack pc) :
    Halts prog := by
  intro data
  obtain ⟨r, hr⟩ := bpfRun_returns data hlen hback prog.length bpfInit
    (Nat.le_add_left _ _)
  exact ⟨_, r, hr⟩

variable {fuel : ℕ} {r : UInt32}

theorem bpfRun_mono (h : bpfRun prog data fuel st = some r)
    (more : ℕ) : bpfRun prog data (fuel + more) st = some r := by
  induction fuel generalizing st with
  | zero => cases h
  | succ fuel ih =>
    rw [Nat.succ_add]
    revert h
    unfold bpfRun
    split
    · exact id
    split
    · exact id
    · exact ih

variable {best : UInt32}

theorem chainStep_mono (h : chainStep data fuel best prog = some r)
    (more : ℕ) : chainStep data (fuel + more) best prog = some r := by
  unfold chainStep at h ⊢
  obtain ⟨res, hres, rfl⟩ := map_eq_some_iff.mp h
  rw [bpfRun_mono hres more]
  rfl

theorem chain_mono (head : List Prog)
    (h : head.foldlM (chainStep data fuel) best = some r) (more : ℕ) :
    head.foldlM (chainStep data (fuel + more)) best = some r := by
  induction head generalizing best with
  | nil => exact h
  | cons f fs ih =>
    rw [List.foldlM_cons] at h ⊢
    obtain ⟨best', hf, hrest⟩ := bind_eq_some_iff.mp h
    refine bind_eq_some_iff.mpr ⟨best', chainStep_mono hf more, ih hrest⟩

theorem chain_rank_le (head : List Prog) {best' : UInt32}
    (hle : actionRank (actionOf best') ≤ actionRank (actionOf best))
    (h : head.foldlM (chainStep data fuel) best = some r) :
    ∃ r', head.foldlM (chainStep data fuel) best' = some r' ∧
      actionRank (actionOf r') ≤ actionRank (actionOf r) := by
  induction head generalizing best best' with
  | nil =>
    cases h
    exact ⟨best', rfl, hle⟩
  | cons f fs ih =>
    rw [List.foldlM_cons] at h
    obtain ⟨next, hf, hrest⟩ := bind_eq_some_iff.mp h
    obtain ⟨res, hres, rfl⟩ := map_eq_some_iff.mp hf
    set next' := if actionRank (actionOf res) < actionRank (actionOf best') then res else best'
      with hnext'
    have hstep : actionRank (actionOf next') ≤ actionRank (actionOf
        (if actionRank (actionOf res) < actionRank (actionOf best) then res else best)) := by
      rw [hnext']
      split <;> split <;> omega
    obtain ⟨r', hr', hle'⟩ := ih hstep hrest
    refine ⟨r', ?_, hle'⟩
    rw [List.foldlM_cons]
    refine bind_eq_some_iff.mpr ⟨next', ?_, hr'⟩
    unfold chainStep
    rw [hres]
    rfl

theorem verdictOf_pass_iff (r : UInt32) : verdictOf r = .pass ↔ 5 ≤ actionRank (actionOf r) := by
  simp only [verdictOf, actionRank]
  generalize actionOf r = action
  by_cases h : action = retAllow ∨ action = retLog
  · rw [if_pos h]
    rcases h with rfl | rfl <;> decide
  · obtain ⟨h₁, h₂⟩ := not_or.mp h
    rw [if_neg h, if_neg h₂, if_neg h₁]
    split_ifs <;> simp

def Stricter (p q : SecProc) : Prop := ∀ nr args, Denied p nr args → Denied q nr args

theorem not_denied_disabled (h : p.mode = .disabled) : ¬ Denied p nr args := by
  rintro ⟨fuel, verdict, hcheck, hne⟩
  unfold seccompCheck at hcheck
  rw [h] at hcheck
  cases hcheck
  exact hne rfl

theorem denied_filter_iff (h : p.mode = .filter) :
    Denied p nr args ↔ ∃ fuel r, chainResult (seccompData nr args) fuel p.filters = some r ∧
      actionRank (actionOf r) < 5 := by
  unfold Denied seccompCheck
  rw [h]
  constructor
  · rintro ⟨fuel, verdict, hcheck, hne⟩
    obtain ⟨r, hr, rfl⟩ := map_eq_some_iff.mp hcheck
    refine ⟨fuel, r, hr, ?_⟩
    rw [ne_eq, verdictOf_pass_iff] at hne
    exact Nat.not_le.mp hne
  · rintro ⟨fuel, r, hr, hlt⟩
    refine ⟨fuel, verdictOf r, map_eq_some_iff.mpr ⟨r, hr, rfl⟩, ?_⟩
    rw [ne_eq, verdictOf_pass_iff]
    exact Nat.not_le.mpr hlt

theorem actionRank_le (action : UInt32) : actionRank action ≤ actionRank (actionOf retAllow) := by
  have htop : actionRank (actionOf retAllow) = 6 := by decide
  rw [htop]
  unfold actionRank
  split_ifs <;> omega

theorem stricter_install {f : Prog} (hmode : p.mode ≠ .strict) (hf : Halts f) :
    Stricter p (seccompInstall p f) := by
  intro nr args hden
  cases hp : p.mode with
  | disabled => exact absurd hden (not_denied_disabled hp)
  | strict => exact absurd hp hmode
  | filter =>
    obtain ⟨fuel, r, hr, hlt⟩ := (denied_filter_iff hp).mp hden
    obtain ⟨more, res, hres⟩ := hf (seccompData nr args)
    have hstep : chainStep (seccompData nr args) more retAllow f = some _ :=
      map_eq_some_iff.mpr ⟨res, hres, rfl⟩
    have hhead := chainStep_mono hstep fuel
    obtain ⟨r', hr', hle⟩ := chain_rank_le p.filters (actionRank_le _) (chain_mono _ hr more)
    refine (denied_filter_iff rfl).mpr ⟨fuel + more, r', ?_, Nat.lt_of_le_of_lt hle hlt⟩
    show (f :: p.filters).foldlM _ _ = _
    rw [List.foldlM_cons]
    rw [Nat.add_comm more fuel] at hhead
    exact bind_eq_some_iff.mpr ⟨_, hhead, hr'⟩

theorem stricter_strict (hmode : p.mode ≠ .filter) : Stricter p { p with mode := .strict } := by
  intro nr args hden
  cases hp : p.mode with
  | disabled => exact absurd hden (not_denied_disabled hp)
  | filter => exact absurd hp hmode
  | strict =>
    obtain ⟨fuel, verdict, hcheck, hne⟩ := hden
    refine ⟨fuel, verdict, ?_, hne⟩
    unfold seccompCheck at hcheck ⊢
    rw [hp] at hcheck
    exact hcheck

theorem stricter_refl (p : SecProc) : Stricter p p := fun _ _ h => h

variable {prog : Option Prog} {admin mem : Bool}

-- the program, if it is one that may be installed
def accepted (p : SecProc) (prog : Option Prog) (admin mem : Bool) : Option Prog :=
  if p.noNewPrivs = false ∧ admin = false then none else prog.bind (seccompBuild · mem)

theorem stricter_apply {mode : UInt32}
    (hmode : p.mode ≠ .strict) (hstrict : mode = 1 → p.mode ≠ .filter)
    (hprog : mode = 2 → ∀ f, accepted p prog admin mem = some f → Halts f) :
    Stricter p (sysSeccompApply p mode prog admin mem).2 := by
  unfold sysSeccompApply
  split
  · next h => exact stricter_strict (hstrict h)
  split
  · exact stricter_refl p
  next htwo =>
  split
  · exact stricter_refl p
  next hpriv =>
  split
  · exact stricter_refl p
  split
  · exact stricter_refl p
  · next filter hf =>
    exact stricter_install hmode (hprog (not_not.mp htwo) filter ((if_neg hpriv).trans hf))

theorem cloneFrom_eq {mem : ℕ → Bool} {i : ℕ} {fs gs : List Prog}
    (h : cloneFrom mem i fs = some gs) : gs = fs := by
  induction fs generalizing i gs with
  | nil =>
    cases h
    rfl
  | cons f fs ih =>
    obtain ⟨node, hnode, h⟩ := bind_eq_some_iff.mp h
    obtain ⟨rest, hrest, h⟩ := bind_eq_some_iff.mp h
    cases h
    rw [ih hrest]
    unfold seccompBuild at hnode
    split at hnode
    · cases hnode
      rfl
    · cases hnode

theorem procSecurityInherit_eq {mem : ℕ → Bool} (h : procSecurityInherit p mem = some q) :
    q = p := by
  unfold procSecurityInherit at h
  dsimp only at h
  split at h
  · cases h
  next hchain =>
    cases h
    have hfilters : seccompChainClone mem p.filters = p.filters := by
      unfold seccompChainClone at hchain ⊢
      cases hc : cloneFrom mem 0 p.filters with
      | some gs => exact cloneFrom_eq hc
      | none =>
        rw [hc] at hchain
        show [] = p.filters
        by_contra hne
        exact hchain ⟨fun h => hne h.symm, rfl⟩
    rw [hfilters]

def SecCall.AsksStrict (args : Args) : SecCall → Prop
  | .seccomp .. => (args 0).toUInt32 = 0 ∧ (args 1).toUInt32 = 0
  | .prctl .. => (args 0).toUInt32 = 22 ∧ (args 1).toUInt32 = 1
  | _ => False

def SecCall.installs (p : SecProc) (args : Args) : SecCall → Option Prog
  | .seccomp prog admin mem =>
    if (args 0).toUInt32 = 1 ∧ (args 1).toUInt32 &&& ~~~ 7 = 0 then accepted p prog admin mem
    else none
  | .prctl prog admin mem =>
    if (args 0).toUInt32 = 22 ∧ (args 1).toUInt32 = 2 then accepted p prog admin mem else none
  | _ => none

/-- No process that has filters asks for the strict mode, and every new filter returns. -/
def SecOk (F : Family SecProc) (act : SecAct) : Prop :=
  ∀ p, F.proc act.pid = some p →
    (act.call.AsksStrict act.args → p.mode ≠ .filter) ∧
      ∀ f, act.call.installs p act.args = some f → Halts f

theorem SecCall.nr_not_strict (call : SecCall) : call.nr ∉ strictCalls := by
  cases call with
  | seccomp => exact (by decide : (317 : UInt64) ∉ strictCalls)
  | prctl => exact (by decide : (157 : UInt64) ∉ strictCalls)
  | fork => exact (by decide : (57 : UInt64) ∉ strictCalls)
  | clone => exact (by decide : (56 : UInt64) ∉ strictCalls)
  | execve => exact (by decide : (59 : UInt64) ∉ strictCalls)

theorem pass_not_strict {call : SecCall}
    (h : seccompCheck fuel p call.nr args = some .pass) : p.mode ≠ .strict := by
  intro hp
  unfold seccompCheck at h
  rw [hp] at h
  rw [if_neg call.nr_not_strict] at h
  cases h

theorem stricter_seccomp {op flags : UInt32}
    (hmode : p.mode ≠ .strict) (hstrict : op = 0 ∧ flags = 0 → p.mode ≠ .filter)
    (hprog : op = 1 ∧ flags &&& ~~~ 7 = 0 → ∀ f, accepted p prog admin mem = some f → Halts f) :
    Stricter p (sysSeccomp p op flags prog admin mem).2 := by
  unfold sysSeccomp
  split
  · next hop =>
    split
    · exact stricter_refl p
    · next hflags =>
      exact stricter_apply hmode (fun _ => hstrict ⟨hop, not_not.mp hflags⟩)
        fun h => absurd h (by decide)
  split
  · next hop =>
    split
    · exact stricter_refl p
    · next hflags =>
      exact stricter_apply hmode (fun h => absurd h (by decide)) fun _ =>
        hprog ⟨hop, not_not.mp hflags⟩
  split <;> exact stricter_refl p

theorem stricter_prctl (hmode : p.mode ≠ .strict)
    (hstrict : (args 0).toUInt32 = 22 ∧ (args 1).toUInt32 = 1 → p.mode ≠ .filter)
    (hprog : (args 0).toUInt32 = 22 ∧ (args 1).toUInt32 = 2 →
      ∀ f, accepted p prog admin mem = some f → Halts f) :
    Stricter p (sysPrctl p args prog admin mem).2 := by
  unfold sysPrctl
  dsimp only
  split
  · next hop => exact stricter_apply hmode (fun h => hstrict ⟨hop, h⟩) fun h => hprog ⟨hop, h⟩
  split
  · split <;> exact stricter_refl p
  · exact stricter_refl p

theorem secStep_step (F : Family SecProc) (act : SecAct) (h : SecOk F act) :
    Step Stricter F (secStep F act) := by
  unfold secStep
  split
  · exact .stay F
  next p hp =>
    obtain ⟨hstrict, hprog⟩ := h p hp
    split
    · next hpass =>
      have hmode := pass_not_strict hpass
      obtain ⟨pid, args, call, fuel⟩ := act
      have hfork : ∀ (room : Bool) (mem : ℕ → Bool), Step Stricter F
          (if room = false then F else match procSecurityInherit p mem with
            | none => F
            | some child => F.spawn pid child) := by
        intro room mem
        split
        · exact .stay F
        split
        · exact .stay F
        · next child hchild =>
          rw [procSecurityInherit_eq hchild]
          exact .fork hp (stricter_refl p)
      cases call with
      | seccomp prog admin mem =>
        exact .go hp (stricter_seccomp hmode hstrict fun hc f hf => hprog f ((if_pos hc).trans hf))
      | prctl prog admin mem =>
        exact .go hp (stricter_prctl hmode hstrict fun hc f hf => hprog f ((if_pos hc).trans hf))
      | fork room mem => exact hfork room mem
      | clone room mem => exact hfork room mem
      | execve => exact .stay F
    · exact .leave F act.pid
    · exact .stay F

/-- Whatever a process is denied, it and all it makes later stay denied. -/
theorem seccomp_denials_persist {F : Family SecProc} {acts : List SecAct} {i j : ℕ} (hF : F.Wf)
    (hok : Along secStep SecOk F acts) (hp : F.proc i = some p)
    (hlater : Later F.next (exec secStep F acts) i j)
    (hq : (exec secStep F acts).proc j = some q) : Stricter p q :=
  passed_run secStep_step stricter_refl (fun h h' nr args hd => h' nr args (h nr args hd)) hF hp hok
    j q hlater hq

def denyCall (nr : UInt32) : Prog :=
  [⟨0x20, 0, 0, 0⟩, ⟨0x15, 0, 1, nr⟩, ⟨0x06, 0, 0, retErrno ||| 1⟩, ⟨0x06, 0, 0, retAllow⟩]

theorem halts_denyCall (nr : UInt32) : Halts (denyCall nr) := by
  apply halts_of_forward
  · show 4 ≤ 4096
    decide
  · rintro pc insn hinsn ⟨hcls, hop, -⟩
    have hmem := List.mem_of_getElem? hinsn
    simp only [denyCall, List.mem_cons, List.not_mem_nil, or_false] at hmem
    rcases hmem with rfl | rfl | rfl | rfl
    · exact absurd hcls (by decide)
    · exact absurd hop (by decide : ¬ ((0x15 : UInt16).toUInt32 &&& 0xf0 = 0x00))
    · exact absurd hcls (by decide)
    · exact absurd hcls (by decide)

def noRead : SecProc := ⟨.filter, [denyCall 0], true⟩

theorem denied_noRead : Denied noRead 0 (fun _ => 0) :=
  ⟨4, .refuse, by decide +kernel, by decide⟩

def addFilter : SecAct :=
  ⟨0, fun i => if i = 0 then 1 else 0, .seccomp (some (denyCall 1)) false true, 4⟩
def forkOne : SecAct := ⟨0, fun _ => 0, .fork true fun _ => true, 4⟩
def askStrict : SecAct := ⟨0, fun _ => 0, .seccomp none false true, 4⟩

theorem seccomp_denials_persist_fork :
    Denied ⟨.filter, [denyCall 1, denyCall 0], true⟩ 0 (fun _ => 0) := by
  have hok : Along secStep SecOk (.one noRead) ([addFilter] ++ [forkOne]) := by
    refine along_concat.mpr ⟨along_concat.mpr ⟨along_nil, ?_⟩, ?_⟩
    · refine fun p _ => ⟨fun h => absurd h.1 (by decide), ?_⟩
      intro f hf
      simp only [addFilter, SecCall.installs, accepted, seccompBuild, ite_none_right_eq_some,
        ite_none_left_eq_some, bind_some, some.injEq] at hf
      exact hf.2.2.2 ▸ halts_denyCall 1
    · exact fun p _ => ⟨fun h => absurd h id, fun f hf => by cases hf⟩
  have hlater : Later 1 (exec secStep (.one noRead) ([addFilter] ++ [forkOne])) 0 1 :=
    .child .self (by decide +kernel) (Nat.le_refl 1)
  have hstart : (Family.one noRead).proc 0 = some noRead := rfl
  exact seccomp_denials_persist (Family.one_wf _) hok hstart hlater (by decide +kernel) 0 _
    denied_noRead

/-- The strict mode lets a process read that its filter kept from it. -/
theorem strict_mode_lifts_filter :
    Denied noRead 0 (fun _ => 0) ∧
      ∃ q, (exec secStep (.one noRead) [askStrict]).proc 0 = some q ∧
        ¬ Denied q 0 (fun _ => 0) := by
  refine ⟨denied_noRead, ⟨.strict, [denyCall 0], true⟩, by decide +kernel, ?_⟩
  rintro ⟨fuel, verdict, hcheck, hne⟩
  cases hcheck
  exact hne rfl

end Kyronix.Security
