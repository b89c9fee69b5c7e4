import Kyronix.Fs.Pipe

/-! Calls on one pipe by any number of threads: sequences of lock-held sections with sleeps between
them, in any order. The events of a run record what the calls accepted and returned. -/
namespace Kyronix.Fs
open Lib List

variable {T : Type*}

inductive Errno where
  | eintr
  | epipe
  | eio
deriving DecidableEq, Repr

inductive PipeCall where
  | read (len : ℕ)
  | peek (len : ℕ) (skip : UInt64)
  | write (data : List UInt8) (done : ℕ)

-- a read or peek returns the bytes it copied, a write how many bytes of `data` it accepted
inductive PipeEvent (T : Type*) where
  | accepted (t : T) (bytes : List UInt8)
  | writeRet (t : T) (data : List UInt8) (result : Except Errno ℕ)
  | readRet (t : T) (result : Except Errno (List UInt8))
  | peekRet (t : T) (result : Except Errno (List UInt8))

-- the flag says that the thread sleeps in its call
structure PipeSys (T : Type*) where
  pipe : Pipe
  calls : T → Option (PipeCall × Bool)

open PipeSys

inductive PipeAct (T : Type*) where
  | read (t : T) (len : ℕ)
  | peek (t : T) (len : ℕ) (skip : UInt64)
  | write (t : T) (data : List UInt8)
  | locked (t : T)
  | signal (t : T)
  | refs (writeRefs readRefs : ℕ)

variable [DecidableEq T]

variable (s : PipeSys T)

def PipeSys.setCall (t : T) (c : Option (PipeCall × Bool)) : PipeSys T :=
  { s with calls := Function.update s.calls t c }

def PipeSys.enter (t : T) (c : PipeCall) (bad : PipeEvent T) : PipeSys T × List (PipeEvent T) :=
  if pipeValid s.pipe then (s.setCall t (some (c, false)), []) else (s, [bad])

def PipeSys.enterWrite (t : T) (data : List UInt8) : PipeSys T × List (PipeEvent T) :=
  if !pipeValid s.pipe then (s, [.writeRet t data (.error .eio)])
  else if s.pipe.readRefs = 0 then (s, [.writeRet t data (.error .epipe)])
  else if data.length = 0 then (s, [.writeRet t data (.ok 0)])
  else (s.setCall t (some (.write data 0, false)), [])

def writeResult (done : ℕ) (e : Errno) : Except Errno ℕ := if done = 0 then .error e else .ok done

def PipeSys.lockedStep (t : T) : PipeCall → PipeSys T × List (PipeEvent T)
  | .read len =>
    match pipeReadLoop s.pipe len [] with
    | (.block, _, _) => (s.setCall t (some (.read len, true)), [])
    | (_, out, p) => ({ s with pipe := p }.setCall t none, [.readRet t (.ok out)])
  | .peek len skip =>
    match pipePeekLoop s.pipe len skip [] with
    | (.block, _) => (s.setCall t (some (.peek len skip, true)), [])
    | (_, out) => (s.setCall t none, [.peekRet t (.ok out)])
  | .write data done =>
    match pipeWriteLoop s.pipe data done with
    | (.block, d, p) =>
      ({ s with pipe := p }.setCall t (some (.write data d, true)),
        [.accepted t ((data.drop done).take (d - done))])
    | (.sigpipe, d, p) =>
      ({ s with pipe := p }.setCall t none,
        [.accepted t ((data.drop done).take (d - done)), .writeRet t data (writeResult d .epipe)])
    | (.ret, d, p) =>
      ({ s with pipe := p }.setCall t none,
        [.accepted t ((data.drop done).take (d - done)), .writeRet t data (.ok d)])

def PipeSys.signalled (t : T) : PipeCall → PipeSys T × List (PipeEvent T)
  | .read _ => (s.setCall t none, [.readRet t (.error .eintr)])
  | .peek _ _ => (s.setCall t none, [.peekRet t (.error .eintr)])
  | .write data done => (s.setCall t none, [.writeRet t data (writeResult done .eintr)])

def PipeSys.step : PipeAct T → PipeSys T × List (PipeEvent T)
  | .read t len =>
    if (s.calls t).isSome then (s, []) else s.enter t (.read len) (.readRet t (.error .eio))
  | .peek t len skip =>
    if (s.calls t).isSome then (s, []) else s.enter t (.peek len skip) (.peekRet t (.error .eio))
  | .write t data => if (s.calls t).isSome then (s, []) else s.enterWrite t data
  | .locked t =>
    match s.calls t with
    | none => (s, [])
    | some (c, _) => s.lockedStep t c
  | .signal t =>
    match s.calls t with
    | some (c, true) => s.signalled t c
    | _ => (s, [])
  | .refs w r => ({ s with pipe := { s.pipe with writeRefs := w, readRefs := r } }, [])

def pipeStart (T : Type*) (writeRefs readRefs : ℕ) : PipeSys T :=
  ⟨pipeAlloc writeRefs readRefs, fun _ => none⟩

def PipeSys.exec (s : PipeSys T) : List (PipeAct T) → PipeSys T × List (PipeEvent T)
  | [] => (s, [])
  | a :: as =>
    let r := (s.step a).1.exec as
    (r.1, (s.step a).2 ++ r.2)

def bytesAccepted : List (PipeEvent T) → List UInt8
  | [] => []
  | .accepted _ bytes :: es => bytes ++ bytesAccepted es
  | _ :: es => bytesAccepted es

def bytesRead : List (PipeEvent T) → List UInt8
  | [] => []
  | .readRet _ (.ok bytes) :: es => bytes ++ bytesRead es
  | _ :: es => bytesRead es

-- what thread `t` has had accepted since its last `pipe_write` returned, starting from `acc`
def acceptedBy (t : T) (acc : List UInt8) : List (PipeEvent T) → List UInt8
  | [] => acc
  | .accepted t' bytes :: es => acceptedBy t (if t' = t then acc ++ bytes else acc) es
  | .writeRet t' _ _ :: es => acceptedBy t (if t' = t then [] else acc) es
  | _ :: es => acceptedBy t acc es

def acceptedCount : Except Errno ℕ → ℕ
  | .ok n => n
  | .error _ => 0

omit [DecidableEq T] in
theorem bytesAccepted_append (es fs : List (PipeEvent T)) :
    bytesAccepted (es ++ fs) = bytesAccepted es ++ bytesAccepted fs := by
  induction es with
  | nil => rfl
  | cons e es ih => cases e <;> simp [bytesAccepted, ih]

omit [DecidableEq T] in
theorem bytesRead_append (es fs : List (PipeEvent T)) :
    bytesRead (es ++ fs) = bytesRead es ++ bytesRead fs := by
  induction es with
  | nil => rfl
  | cons e es ih =>
    cases e with
    | readRet t r => cases r <;> simp [bytesRead, ih]
    | accepted t b | writeRet t d r | peekRet t r => simpa [bytesRead] using ih

theorem acceptedBy_append (t : T) (acc : List UInt8) (es fs : List (PipeEvent T)) :
    acceptedBy t acc (es ++ fs) = acceptedBy t (acceptedBy t acc es) fs := by
  induction es generalizing acc with
  | nil => rfl
  | cons e es ih => cases e <;> simp only [cons_append, acceptedBy, ih]

theorem acceptedCount_writeResult (d : ℕ) (e : Errno) : acceptedCount (writeResult d e) = d := by
  unfold writeResult
  split_ifs with h
  · exact h.symm
  · rfl

-- the local variables of a write in progress, against the bytes the pipe took from it
def CallMatches (c : Option (PipeCall × Bool)) (acc : List UInt8) : Prop :=
  match c with
  | some (.write data done, _) => done ≤ data.length ∧ acc = data.take done
  | _ => acc = []

def WritesMatch (acc : T → List UInt8) (s : PipeSys T) : Prop :=
  ∀ t, CallMatches (s.calls t) (acc t)

-- every return value in `es` counts the bytes that went in since the caller's last return
def ReturnsMatch (acc : T → List UInt8) (es : List (PipeEvent T)) : Prop :=
  ∀ pre t data r post, es = pre ++ .writeRet t data r :: post →
    acceptedCount r ≤ data.length ∧ acceptedBy t (acc t) pre = data.take (acceptedCount r)

structure StepAccounts (acc : T → List UInt8) (s : PipeSys T) (r : PipeSys T × List (PipeEvent T)) :
    Prop where
  balance : bytesRead r.2 ++ r.1.pipe.contents = s.pipe.contents ++ bytesAccepted r.2
  writes : WritesMatch (fun t => acceptedBy t (acc t) r.2) r.1
  returns : ReturnsMatch acc r.2

theorem returnsMatch_nil (acc : T → List UInt8) : ReturnsMatch acc [] := by
  intro pre t data r post h
  simp at h

variable {acc : T → List UInt8} {s : PipeSys T} {t : T} {b : Bool}

theorem returnsMatch_append {es fs : List (PipeEvent T)}
    (h : ReturnsMatch acc es) (h' : ReturnsMatch (fun t => acceptedBy t (acc t) es) fs) :
    ReturnsMatch acc (es ++ fs) := by
  intro pre t data r post heq
  rcases append_eq_append_iff.mp heq with ⟨mid, hpre, hfs⟩ | ⟨mid, hes, hpost⟩
  · rw [hpre, acceptedBy_append]
    exact h' mid t data r post hfs
  · cases mid with
    | nil =>
      rw [append_nil] at hes
      rw [← hes]
      exact h' [] t data r post (by simpa using hpost.symm)
    | cons e mid =>
      obtain ⟨he, -⟩ := List.cons.inj hpost
      exact h pre t data r mid (by rw [hes, he])

theorem stepAccounts_idle {s' : PipeSys T} (h : WritesMatch acc s)
    (hp : s'.pipe.contents = s.pipe.contents) (hc : s'.calls = s.calls) :
    StepAccounts acc s (s', []) := by
  refine ⟨by simpa [bytesRead, bytesAccepted] using hp, ?_, returnsMatch_nil acc⟩
  intro t
  rw [hc]
  exact h t

theorem writesMatch_setCall
    {c : Option (PipeCall × Bool)} {es : List (PipeEvent T)} (h : WritesMatch acc s)
    (hother : ∀ t', t' ≠ t → acceptedBy t' (acc t') es = acc t')
    (ht : CallMatches c (acceptedBy t (acc t) es)) :
    WritesMatch (fun t => acceptedBy t (acc t) es) (s.setCall t c) := by
  intro t'
  by_cases heq : t' = t
  · subst heq
    simpa [setCall] using ht
  · simpa [setCall, heq, hother t' heq] using h t'

theorem returnsMatch_single {e : PipeEvent T}
    (h : ∀ t data r, e = .writeRet t data r →
      acceptedCount r ≤ data.length ∧ acc t = data.take (acceptedCount r)) :
    ReturnsMatch acc [e] := by
  intro pre t data r post heq
  cases pre with
  | nil =>
    obtain ⟨he, -⟩ := List.cons.inj heq
    exact h t data r he
  | cons e' pre => simp at heq

section

variable (h : WritesMatch acc s)
include h

omit [DecidableEq T] in
theorem writesMatch_pipe (p : Pipe) :
    WritesMatch acc { s with pipe := p } := h

theorem setCall_accounts {c : Option (PipeCall × Bool)} (hm : CallMatches c (acc t)) :
    StepAccounts acc s (s.setCall t c, []) :=
  ⟨by simp [bytesRead, bytesAccepted, setCall], writesMatch_setCall h (fun _ _ => rfl)
    (by simpa [acceptedBy] using hm), returnsMatch_nil acc⟩

theorem lockedStep_read {len : ℕ} (hc : s.calls t = some (.read len, b)) :
    StepAccounts acc s (s.lockedStep t (.read len)) := by
  have hacc : acc t = [] := by simpa [CallMatches, hc] using h t
  obtain ⟨hout, hcont⟩ := pipeReadLoop_spec s.pipe len []
  rcases hr : pipeReadLoop s.pipe len [] with ⟨o, out, p⟩
  rw [hr] at hout hcont
  simp only [length_nil, Nat.sub_zero, nil_append] at hout hcont
  have hret : StepAccounts acc s
      ({ s with pipe := p }.setCall t none, [.readRet t (.ok out)]) := by
    refine ⟨?_, writesMatch_setCall (writesMatch_pipe h p) (fun _ _ => rfl) hacc, ?_⟩
    · simp [bytesRead, bytesAccepted, setCall, hout, hcont]
    · exact returnsMatch_single (by simp)
  cases o with
  | ret | sigpipe => simpa only [lockedStep, hr] using hret
  | block =>
    simp only [lockedStep, hr]
    exact setCall_accounts h hacc

theorem lockedStep_peek {len : ℕ} {skip : UInt64} (hc : s.calls t = some (.peek len skip, b)) :
    StepAccounts acc s (s.lockedStep t (.peek len skip)) := by
  have hacc : acc t = [] := by simpa [CallMatches, hc] using h t
  rcases hr : pipePeekLoop s.pipe len skip [] with ⟨o, out⟩
  have hret : StepAccounts acc s (s.setCall t none, [.peekRet t (.ok out)]) := by
    refine ⟨by simp [bytesRead, bytesAccepted, setCall],
      writesMatch_setCall h (fun _ _ => rfl) hacc, returnsMatch_single (by simp)⟩
  cases o with
  | ret | sigpipe => simpa only [lockedStep, hr] using hret
  | block =>
    simp only [lockedStep, hr]
    exact setCall_accounts h hacc

theorem lockedStep_write {data : List UInt8} {done : ℕ}
    (hc : s.calls t = some (.write data done, b)) :
    StepAccounts acc s (s.lockedStep t (.write data done)) := by
  obtain ⟨hdone, hacc⟩ : done ≤ data.length ∧ acc t = data.take done := by
    simpa [CallMatches, hc] using h t
  obtain ⟨hge, hle, hcont⟩ := pipeWriteLoop_spec s.pipe data done hdone
  rcases hw : pipeWriteLoop s.pipe data done with ⟨o, d, p⟩
  rw [hw] at hge hle hcont
  simp only at hge hle hcont
  have htake : acc t ++ (data.drop done).take (d - done) = data.take d := by
    rw [hacc, Ring.take_append_take_drop hge]
  -- the two ways a write returns differ in the value only
  have hret : ∀ r, acceptedCount r = d → StepAccounts acc s ({ s with pipe := p }.setCall t none,
      [.accepted t ((data.drop done).take (d - done)), .writeRet t data r]) := by
    intro r hr
    refine ⟨by simpa [bytesRead, bytesAccepted, setCall] using hcont, ?_, ?_⟩
    · apply writesMatch_setCall (writesMatch_pipe h p)
      · intro t' ht'
        simp [acceptedBy, Ne.symm ht']
      · simp [acceptedBy, CallMatches]
    · have hfst : ReturnsMatch acc [.accepted t ((data.drop done).take (d - done))] :=
        returnsMatch_single (by simp)
      refine returnsMatch_append hfst (returnsMatch_single fun t' data' r' he => ?_)
      obtain ⟨rfl, rfl, rfl⟩ := PipeEvent.writeRet.inj he
      simpa [acceptedBy, hr, hle] using htake
  cases o with
  | ret => simpa only [lockedStep, hw] using hret (.ok d) rfl
  | sigpipe =>
    simpa only [lockedStep, hw] using hret _ (acceptedCount_writeResult d .epipe)
  | block =>
    simp only [lockedStep, hw]
    refine ⟨by simpa [bytesRead, bytesAccepted, setCall] using hcont, ?_, ?_⟩
    · apply writesMatch_setCall (writesMatch_pipe h p)
      · intro t' ht'
        simp [acceptedBy, Ne.symm ht']
      · simpa [acceptedBy, CallMatches, hle] using htake
    · exact returnsMatch_single (by simp)

theorem signalled_accounts {c : PipeCall} (hc : s.calls t = some (c, b)) :
    StepAccounts acc s (s.signalled t c) := by
  have hm := h t
  rw [hc] at hm
  cases c with
  | read len | peek len skip =>
    exact ⟨by simp [signalled, bytesRead, bytesAccepted, setCall],
      writesMatch_setCall h (fun _ _ => rfl) hm, returnsMatch_single (by simp)⟩
  | write data done =>
    obtain ⟨hdone, hacc⟩ := hm
    simp only [signalled]
    refine ⟨by simp [bytesRead, bytesAccepted, setCall], ?_, ?_⟩
    · apply writesMatch_setCall h
      · intro t' ht'
        simp [acceptedBy, Ne.symm ht']
      · simp [acceptedBy, CallMatches]
    · apply returnsMatch_single
      intro t' data' r he
      cases he
      rw [acceptedCount_writeResult]
      exact ⟨hdone, hacc⟩

theorem enter_accounts {c : PipeCall} {bad : PipeEvent T} (hc : s.calls t = none)
    (hcall : CallMatches (some (c, false)) [])
    (hbad : bad = .readRet t (.error .eio) ∨ bad = .peekRet t (.error .eio)) :
    StepAccounts acc s (s.enter t c bad) := by
  have hacc : acc t = [] := by simpa [CallMatches, hc] using h t
  unfold enter
  split_ifs
  · exact setCall_accounts h (hacc ▸ hcall)
  · rcases hbad with rfl | rfl
    · exact ⟨by simp [bytesRead, bytesAccepted], h, returnsMatch_single (by simp)⟩
    · exact ⟨by simp [bytesRead, bytesAccepted], h, returnsMatch_single (by simp)⟩

theorem enterWrite_accounts {data : List UInt8}
    (hc : s.calls t = none) : StepAccounts acc s (s.enterWrite t data) := by
  have hacc : acc t = [] := by simpa [CallMatches, hc] using h t
  have hret : ∀ r, acceptedCount r = 0 → StepAccounts acc s (s, [.writeRet t data r]) := by
    intro r hr
    refine ⟨by simp [bytesRead, bytesAccepted], ?_, ?_⟩
    · intro t'
      by_cases ht' : t = t'
      · subst ht'
        simp [acceptedBy, CallMatches, hc]
      · simpa [acceptedBy, ht'] using h t'
    · apply returnsMatch_single
      intro t' data' r' he
      cases he
      simp [hr, hacc]
  unfold enterWrite
  split_ifs with h₁ h₂ h₃
  · exact hret _ rfl
  · exact hret _ rfl
  · exact hret _ rfl
  · exact setCall_accounts h (by simp [CallMatches, hacc])

theorem step_accounts (a : PipeAct T) : StepAccounts acc s (s.step a) := by
  cases a with
  | read t len =>
    simp only [step]
    split_ifs with hc
    · exact stepAccounts_idle h rfl rfl
    · exact enter_accounts h (by simpa using hc) rfl (.inl rfl)
  | peek t len skip =>
    simp only [step]
    split_ifs with hc
    · exact stepAccounts_idle h rfl rfl
    · exact enter_accounts h (by simpa using hc) rfl (.inr rfl)
  | write t data =>
    simp only [step]
    split_ifs with hc
    · exact stepAccounts_idle h rfl rfl
    · exact enterWrite_accounts h (by simpa using hc)
  | locked t =>
    simp only [step]
    rcases hc : s.calls t with _ | ⟨c, b⟩
    · exact stepAccounts_idle h rfl rfl
    · cases c with
      | read len => exact lockedStep_read h hc
      | peek len skip => exact lockedStep_peek h hc
      | write data done => exact lockedStep_write h hc
  | signal t =>
    simp only [step]
    rcases hc : s.calls t with _ | ⟨c, _ | _⟩
    · exact stepAccounts_idle h rfl rfl
    · exact stepAccounts_idle h rfl rfl
    · exact signalled_accounts h hc
  | refs w r => exact stepAccounts_idle h rfl rfl

end

theorem exec_accounts (as : List (PipeAct T))
    (h : WritesMatch acc s) : StepAccounts acc s (s.exec as) := by
  induction as generalizing acc s with
  | nil => exact stepAccounts_idle h rfl rfl
  | cons a as ih =>
    obtain ⟨hb, hw, hr⟩ := step_accounts h a
    obtain ⟨hb', hw', hr'⟩ := ih hw
    refine ⟨?_, ?_, returnsMatch_append hr hr'⟩
    · simp only [exec, bytesRead_append, bytesAccepted_append]
      rw [append_assoc, hb', ← append_assoc, hb, append_assoc]
    · intro t
      simp only [exec, acceptedBy_append]
      exact hw' t

/-- The bytes read are a prefix of the bytes accepted, the pipe holds the difference, every
`pipe_write` returns the number of bytes it put in, and a peek sees what a read would return. -/
theorem pipe_bounded_fifo (writeRefs readRefs : ℕ) (as : List (PipeAct T)) :
    let s := ((pipeStart T writeRefs readRefs).exec as).1
    let es := ((pipeStart T writeRefs readRefs).exec as).2
    bytesRead es <+: bytesAccepted es ∧
      (bytesRead es).length + s.pipe.count = (bytesAccepted es).length ∧
      s.pipe.count ≤ pipeBufsz ∧
      (∀ pre t data r post, es = pre ++ .writeRet t data r :: post →
        acceptedCount r ≤ data.length ∧ acceptedBy t [] pre = data.take (acceptedCount r)) ∧
      ∀ (len : ℕ) (skip : UInt64),
        (pipePeekLoop s.pipe len skip []).2 =
            (pipeReadLoop s.pipe (skip.toNat + len) []).2.1.drop skip.toNat ∧
          ((pipePeekLoop s.pipe len skip []).1 ≠ .block → 0 < len →
            (pipeReadLoop s.pipe (skip.toNat + len) []).1 = .ret) := by
  intro s es
  have hstart : WritesMatch (fun _ => []) (pipeStart T writeRefs readRefs) := fun _ => rfl
  obtain ⟨hb, -, hr⟩ := exec_accounts as hstart
  have hempty : (pipeStart T writeRefs readRefs).pipe.contents = [] := rfl
  rw [hempty, nil_append] at hb
  refine ⟨⟨s.pipe.contents, hb⟩, ?_, s.pipe.count_le, hr, fun len skip => ⟨?_, ?_⟩⟩
  · have hlen := congrArg List.length hb
    rwa [length_append, Pipe.length_contents] at hlen
  · exact pipePeekLoop_eq_read s.pipe len skip
  · intro hpeek hlen
    by_contra hread
    obtain ⟨-, h0, hw, -⟩ := pipeReadLoop_block hread
    exact hpeek (pipePeekLoop_block hlen h0 hw)

end Kyronix.Fs
