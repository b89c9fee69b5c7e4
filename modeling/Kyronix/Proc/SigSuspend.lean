import Kyronix.Lib.Run

/-! Pending signals and the masks they are acted on under (`signal.c`, `sig.c`). Masks are sets of
signal numbers, and a step of the process can be followed by signals from elsewhere. -/
namespace Kyronix.Proc.Signal

open Lib.Run Function Finset

def nsig : ℕ := 64
def sigkill : ℕ := 9
def sigsegv : ℕ := 11
def sigcont : ℕ := 18
def sigstop : ℕ := 19
def sigUnblockable : Finset ℕ := {sigkill, sigstop}
def sigStopMask : Finset ℕ := {sigstop, 20, 21, 22}

def sigDefaultFatal (sig : ℕ) : Bool := sig ∉ ({17, sigcont, 28} : Finset ℕ)

inductive Handler
  | ign
  | dfl
  | fn
deriving DecidableEq

structure SigAction where
  handler : Handler
  restorer : Bool
  mask : Finset ℕ
  nodefer : Bool
  resethand : Bool

inductive Phase
  | user
  | suspended (saved : Finset ℕ)
  | returning
  | gone
deriving DecidableEq

/-- `frames` are the masks that the frames of handlers have been given, the last one first. `owed`
are the signals that ended a `rt_sigsuspend` and have not been acted on since, `log` has the mask
that each signal acted on found, and `original` is the mask before a `rt_sigsuspend`, until the
process makes another call. -/
structure SigProc where
  mask : Finset ℕ
  pending : Finset ℕ
  actions : ℕ → SigAction
  traced : Bool
  phase : Phase
  frames : List (Finset ℕ)
  owed : Finset ℕ
  log : List (ℕ × Finset ℕ)
  original : Option (Finset ℕ)

variable (p : SigProc)

def procSendSignal (sig : ℕ) : SigProc :=
  if sig < 1 ∨ sig ≥ nsig then p else
  let rest := if sig = sigcont then p.pending \ sigStopMask
    else if sig ∈ sigStopMask then p.pending.erase sigcont else p.pending
  { p with pending := insert sig rest }

/-- `room` tells whether the stack of the process has room for the frame. -/
def setupSigframe (sig : ℕ) (room : Bool) : SigProc :=
  let a := p.actions sig
  if room = false then { p with phase := .gone, log := (sigsegv, p.mask) :: p.log }
  else { p with
    frames := p.mask :: p.frames
    mask := (p.mask ∪ a.mask ∪ if a.nodefer then ∅ else {sig}) \ sigUnblockable
    actions := if a.resethand then update p.actions sig { a with handler := .dfl } else p.actions }

-- a process that is stopped goes on from there
def deliverSignal (sig : ℕ) (room : Bool) : SigProc :=
  let p := { p with log := (sig, p.mask) :: p.log, owed := p.owed.erase sig }
  if sig = sigkill then { p with phase := .gone }
  else if sig ∈ sigStopMask ∧ (sig = sigstop ∨ (p.actions sig).handler = .dfl) then p
  else match (p.actions sig).handler with
    | .ign => p
    | .dfl => if sigDefaultFatal sig then { p with phase := .gone } else p
    | .fn =>
      if (p.actions sig).restorer = false then { p with phase := .gone }
      else setupSigframe p sig room

def ready (pending mask : Finset ℕ) : Finset ℕ := pending \ (mask \ sigUnblockable)

def signalCheck (room : Bool) : SigProc :=
  if h : (ready p.pending p.mask).Nonempty then
    let sig := (ready p.pending p.mask).min' h
    let p := { p with pending := p.pending.erase sig }
    if p.traced = true ∧ sig ≠ sigkill then p else deliverSignal p sig room
  else p

inductive SigAct
  | send (sig : ℕ)
  | sigprocmask (mask : Finset ℕ)
  | sigaction (sig : ℕ) (a : SigAction)
  | sigsuspend (mask : Option (Finset ℕ))
  | sigreturn (frame : Option (Finset ℕ))
  | leave
  | check (room : Bool)

/-- `leave` is the test of the loop of `rt_sigsuspend`, `check` the way back to user code. A frame
that `rt_sigreturn` can read has some mask, since user code may have changed it. -/
def sigStep : SigAct → SigProc
  | .send sig => procSendSignal p sig
  | .sigprocmask mask =>
    if p.phase = .user then
      { p with mask := mask \ sigUnblockable, phase := .returning, original := none } else p
  | .sigaction sig a =>
    if p.phase = .user ∧ sig ∉ sigUnblockable then
      { p with actions := update p.actions sig a, phase := .returning, original := none } else p
  | .sigreturn frame =>
    if p.phase = .user then
      { p with
        mask := frame.elim p.mask (· \ sigUnblockable)
        phase := .returning
        original := none } else p
  | .sigsuspend mask =>
    if p.phase = .user then
      { p with
        mask := match mask with
          | none => p.mask
          | some mask => mask \ sigUnblockable
        phase := .suspended p.mask
        original := some p.mask } else p
  | .leave =>
    match p.phase with
    | .suspended saved =>
      if (p.pending \ p.mask).Nonempty then
        { p with mask := saved, phase := .returning, owed := p.pending \ p.mask } else p
    | _ => p
  | .check room =>
    if p.phase = .returning then signalCheck { p with phase := .user } room else p

/-- What ended a `rt_sigsuspend` was acted on before user code goes on, with the original mask or in
a handler whose frame restores it; and nothing that was blocked ever was. -/
structure Honoured (p : SigProc) : Prop where
  acted : p.phase = .user → p.owed = ∅
  restored : p.phase = .user → ∀ m, p.original = some m →
    p.mask = m ∨ p.frames ≠ [] ∧ (sigStep p (.sigreturn p.frames.head?)).mask = m
  unblocked : ∀ e ∈ p.log, e.1 ∈ e.2 → e.1 ∈ sigUnblockable

/-- What ends a `rt_sigsuspend` is the first signal that the original mask lets through, and stays
it; the process is not traced, and has a stack or `SIGSEGV` unblocked. -/
def SigOk : SigAct → Prop
  | .leave => ∀ saved, p.phase = .suspended saved →
    ∀ sig ∈ p.pending \ p.mask, IsLeast (ready p.pending saved : Set ℕ) sig
  | .send sig => p.phase = .returning →
    ∀ o ∈ p.owed, o ∈ (procSendSignal p sig).pending ∧
      (sig ∈ ready (procSendSignal p sig).pending p.mask → o ≤ sig)
  | .check room => (p.owed ≠ ∅ → p.traced = false) ∧ (room = false → sigsegv ∉ p.mask)
  | _ => True

structure Inv (p : SigProc) : Prop where
  acted : p.phase = .user → p.owed = ∅
  unblocked : ∀ e ∈ p.log, e.1 ∈ e.2 → e.1 ∈ sigUnblockable
  waiting : ∀ saved, p.phase = .suspended saved → p.original = some saved
  next : p.phase = .returning → ∀ o ∈ p.owed, IsLeast (ready p.pending p.mask : Set ℕ) o
  blockable : ∀ m, m = p.mask ∨ p.original = some m → Disjoint m sigUnblockable
  back : p.phase = .returning → ∀ m, p.original = some m → p.mask = m
  framed : p.phase = .user → ∀ m, p.original = some m → p.mask = m ∨ p.frames.head? = some m

variable {p : SigProc} {sig : ℕ} {room : Bool}

theorem mem_ready {pending mask : Finset ℕ} :
    sig ∈ ready pending mask ↔ sig ∈ pending ∧ (sig ∈ mask → sig ∈ sigUnblockable) := by
  simp [ready]

theorem Inv.honoured (h : Inv p) : Honoured p := by
  refine ⟨h.acted, fun hphase m hm => ?_, h.unblocked⟩
  refine (h.framed hphase m hm).imp_right fun hframe => ⟨fun hnil => ?_, ?_⟩
  · simp [hnil] at hframe
  rw [sigStep, if_pos hphase, hframe]
  exact sdiff_eq_self_of_disjoint (h.blockable m (.inr hm))

theorem pending_procSendSignal (p : SigProc) (sig : ℕ) :
    (procSendSignal p sig).pending ⊆ insert sig p.pending := by
  unfold procSendSignal
  split_ifs
  · exact subset_insert ..
  all_goals refine insert_subset_insert sig ?_
  · exact sdiff_subset
  · exact erase_subset ..
  · exact Subset.rfl

theorem procSendSignal_eq (p : SigProc) (sig : ℕ) :
    procSendSignal p sig = { p with pending := (procSendSignal p sig).pending } := by
  unfold procSendSignal
  split_ifs <;> rfl

theorem Inv.send (h : Inv p) (hok : SigOk p (.send sig)) : Inv (procSendSignal p sig) := by
  have hsub := pending_procSendSignal p sig
  simp only [SigOk] at hok
  rw [procSendSignal_eq]
  generalize (procSendSignal p sig).pending = pending at hok hsub
  refine { h with next := fun hphase o ho => ?_ }
  obtain ⟨hkept, hfirst⟩ := hok hphase o ho
  obtain ⟨hmem, hleast⟩ := h.next hphase o ho
  refine ⟨mem_ready.mpr ⟨hkept, (mem_ready.mp hmem).2⟩, fun x hx => ?_⟩
  rcases mem_insert.mp (hsub (mem_ready.mp hx).1) with rfl | hin
  · exact hfirst hx
  · exact hleast (mem_ready.mpr ⟨hin, (mem_ready.mp hx).2⟩)

theorem Inv.leave (h : Inv p) (hok : SigOk p .leave) : Inv (sigStep p .leave) := by
  simp only [sigStep]
  split
  · next saved hphase =>
    split_ifs with hend
    · have horig := h.waiting saved hphase
      exact ⟨nofun, h.unblocked, nofun, fun _ => hok saved hphase,
        fun m hm => h.blockable m (.inr (hm.elim (fun heq => heq ▸ horig) id)),
        fun _ m hm => Option.some.inj (horig.symm.trans hm), nofun⟩
    · exact h
  · exact h

theorem deliverSignal_fields (p : SigProc) (sig : ℕ) (room : Bool) :
    (deliverSignal p sig room).owed = p.owed.erase sig ∧
      ((deliverSignal p sig room).phase = p.phase ∨ (deliverSignal p sig room).phase = .gone) ∧
      ((deliverSignal p sig room).log = (sig, p.mask) :: p.log ∨ room = false ∧
        (deliverSignal p sig room).log = (sigsegv, p.mask) :: (sig, p.mask) :: p.log) ∧
      (deliverSignal p sig room).original = p.original ∧
      ((deliverSignal p sig room).mask = p.mask ∨ (deliverSignal p sig room).frames.head? =
        some p.mask ∧ Disjoint (deliverSignal p sig room).mask sigUnblockable) := by
  cases hact : (p.actions sig).handler <;> simp only [deliverSignal, setupSigframe, hact] <;>
    split_ifs <;> simp_all [sdiff_disjoint]

theorem Inv.check (h : Inv p) (hok : SigOk p (.check room)) : Inv (sigStep p (.check room)) := by
  obtain ⟨htraced, hroom⟩ := hok
  simp only [sigStep]
  split_ifs with hphase
  swap
  · exact h
  have hnext := h.next hphase
  have hback := h.back hphase
  unfold signalCheck
  split_ifs with hready
  · have hleast := isLeast_min' _ hready
    generalize (ready p.pending p.mask).min' hready = sig at *
    have howed : p.owed ⊆ {sig} := fun o ho => mem_singleton.mpr ((hnext o ho).unique hleast)
    have hmask := (mem_ready.mp hleast.1).2
    dsimp only
    split_ifs with htrace
    · have hnone : p.owed = ∅ := by_contra fun hne => nomatch (htraced hne).symm.trans htrace.1
      exact ⟨fun _ => hnone, h.unblocked, nofun, nofun, h.blockable, nofun,
        fun _ m hm => .inl (hback m hm)⟩
    · obtain ⟨hleft, hphase, hlog, horig, hframe⟩ :=
        deliverSignal_fields { p with phase := .user, pending := p.pending.erase sig } sig room
      refine ⟨fun _ => ?_, fun e he => ?_, fun saved hs => ?_, fun hs => ?_, fun m hm => ?_,
        fun hs => ?_, fun _ m hm => ?_⟩
      · rw [hleft]
        exact (erase_eq_empty_iff ..).mpr (subset_singleton_iff.mp howed)
      · rcases hlog with hlog | ⟨hno, hlog⟩ <;> rw [hlog] at he
        · rcases List.mem_cons.mp he with rfl | he
          · exact hmask
          · exact h.unblocked e he
        · rcases List.mem_cons.mp he with rfl | he
          · exact fun hin => absurd hin (hroom hno)
          · rcases List.mem_cons.mp he with rfl | he
            · exact hmask
            · exact h.unblocked e he
      · rcases hphase with hp | hp <;> exact nomatch hp.symm.trans hs
      · rcases hphase with hp | hp <;> exact nomatch hp.symm.trans hs
      · rcases hm with rfl | hm
        · exact hframe.elim (h.blockable _ <| .inl ·) And.right
        · exact h.blockable m (.inr (horig ▸ hm))
      · rcases hphase with hp | hp <;> exact nomatch hp.symm.trans hs
      · have heq : p.mask = m := hback m (horig ▸ hm)
        exact hframe.imp (·.trans heq) fun hf => hf.1.trans (congrArg some heq)
  · have hnone : p.owed = ∅ := by
      refine eq_empty_of_forall_notMem fun o ho => hready ⟨o, (hnext o ho).1⟩
    exact ⟨fun _ => hnone, h.unblocked, nofun, nofun, h.blockable, nofun,
      fun _ m hm => .inl (hback m hm)⟩

/-- A call other than `rt_sigsuspend` is on its way back, with the mask that it set. -/
theorem Inv.called (h : Inv p) (hphase : p.phase = .user) {mask : Finset ℕ}
    (hmask : Disjoint mask sigUnblockable) (actions : ℕ → SigAction) :
    Inv { p with mask, actions, phase := .returning, original := none } :=
  ⟨nofun, h.unblocked, nofun, fun _ => by simp [h.acted hphase],
    fun m hm => hm.elim (fun heq => heq ▸ hmask) nofun, nofun, nofun⟩

theorem Inv.step (h : Inv p) {a : SigAct} (hok : SigOk p a) : Inv (sigStep p a) := by
  have hown : Disjoint p.mask sigUnblockable := h.blockable _ (.inl rfl)
  cases a with
  | send sig => exact h.send hok
  | sigprocmask mask =>
    simp only [sigStep]
    split_ifs with hphase
    · exact h.called hphase sdiff_disjoint _
    · exact h
  | sigaction sig a =>
    simp only [sigStep]
    split_ifs with hphase
    · exact h.called hphase.1 hown _
    · exact h
  | sigreturn frame =>
    simp only [sigStep]
    split_ifs with hphase
    · refine h.called hphase ?_ _
      cases frame
      · exact hown
      · exact sdiff_disjoint
    · exact h
  | sigsuspend mask =>
    simp only [sigStep]
    split_ifs with hphase
    · refine ⟨nofun, h.unblocked, fun saved hs => ?_, nofun, fun m hm => ?_,
        nofun, nofun⟩
      · cases hs
        rfl
      · rcases hm with rfl | hm
        · cases mask
          · exact hown
          · exact sdiff_disjoint
        · cases hm
          exact hown
    · exact h
  | leave => exact h.leave hok
  | check room => exact h.check hok

structure SigProc.Start (p : SigProc) : Prop where
  phase : p.phase = .user
  owed : p.owed = ∅
  log : p.log = []
  original : p.original = none
  blockable : Disjoint p.mask sigUnblockable

theorem signals_honoured (p : SigProc) (hp : p.Start) (as : List SigAct)
    (hok : Along sigStep SigOk p as) : Always sigStep Honoured p as := by
  have hinv : Inv p := ⟨fun _ => hp.owed, by simp [hp.log], by simp [hp.phase], by simp [hp.phase],
    fun m hm => (hm.resolve_right (by simp [hp.original])) ▸ hp.blockable, by simp [hp.phase],
    by simp [hp.original]⟩
  exact fun pre hpre => (hok.always hinv (fun _ _ h => h.step) pre hpre).honoured

def handling (mask : Finset ℕ) : SigProc :=
  ⟨mask, ∅, fun _ => ⟨.fn, true, ∅, false, false⟩, false, .user, [], ∅, [], none⟩

def suspendOnce : List SigAct := [.sigsuspend (some ∅), .send 10, .leave, .check true]

theorem signals_honoured_once : Always sigStep Honoured (handling ∅) suspendOnce := by
  refine signals_honoured _ ⟨rfl, rfl, rfl, rfl, disjoint_empty_left _⟩ _ (along_cons.mpr ⟨trivial,
    along_cons.mpr ⟨nofun, along_cons.mpr ⟨fun saved hsaved sig hsig => ?_,
    along_cons.mpr ⟨⟨fun _ => rfl, nofun⟩, along_nil⟩⟩⟩⟩)
  cases hsaved
  have hten {x : ℕ} (hx : x ∈ (procSendSignal (handling ∅) 10).pending) : x = 10 := by
    simpa [procSendSignal, nsig, handling, sigcont, sigStopMask, sigstop] using hx
  obtain rfl := hten (mem_sdiff.mp hsig).1
  exact ⟨by decide +kernel, fun x hx => (hten (mem_ready.mp hx).1).ge⟩

/-- The signal that ends the wait is blocked again when the process returns. -/
theorem signals_forgotten : ¬ Always sigStep Honoured (handling {10}) suspendOnce :=
  fun h => absurd ((h _ List.prefix_rfl).acted (by decide +kernel)) (by decide +kernel)

end Kyronix.Proc.Signal
