import Kyronix.Fs.PollFile

/-! Readers and writers of one counter (`eventfd.c`), a section under its lock at a time: what is
written is read or still there, and who sleeps while there is something to read. -/
namespace Kyronix.Fs.Event

open Lib.Run Function

variable {T : Type*} [DecidableEq T]

inductive Pc
  | idle
  | asleep
  | again
deriving DecidableEq

/-- `given` is the initial value with all that was written, `taken` all that was read. -/
structure EventSys (T : Type*) where
  fd : EventFd
  waiter : Option T
  pc : T → Pc
  waiting : T → Bool
  given : ℕ
  taken : ℕ

def fdEventfd (T : Type*) (initval : UInt32) (semaphore : Bool) : EventSys T where
  fd := ⟨initval.toUInt64, semaphore⟩
  waiter := none
  pc _ := .idle
  waiting _ := false
  given := initval.toNat
  taken := 0

variable (s : EventSys T)

def readSection (t : T) (nonblock : Bool) (len : ℕ) : EventSys T :=
  match eventfdRead s.fd nonblock len with
  | (.done _ (.value v), fd) =>
    { s with fd := fd, taken := s.taken + v.toNat, pc := update s.pc t .idle }
  | (.waits, _) =>
    { s with waiter := some t, waiting := update s.waiting t true, pc := update s.pc t .asleep }
  | _ => { s with pc := update s.pc t .idle }

def leaveSection (t : T) : EventSys T :=
  { s with waiter := if s.waiter = some t then none else s.waiter, pc := update s.pc t .again }

def EventSys.woken : T → Bool :=
  match s.waiter with
  | none => s.waiting
  | some w => update s.waiting w false

def writeSection (len : ℕ) (val : UInt64) : EventSys T :=
  match eventfdWrite s.fd len val with
  | (.done 8 _, fd) =>
    { s with
      fd := fd
      given := s.given + val.toNat
      waiter := none
      waiting := s.woken }
  | _ => s

inductive EvAct (T : Type*)
  | read (t : T) (nonblock : Bool) (len : ℕ)
  | leave (t : T)
  | retry (t : T) (nonblock : Bool) (len : ℕ)
  | write (len : ℕ) (val : UInt64)
  | signal (t : T)

def evStep : EvAct T → EventSys T
  | .read t nonblock len => if s.pc t = .idle then readSection s t nonblock len else s
  | .leave t => if s.pc t = .asleep ∧ s.waiting t = false then leaveSection s t else s
  | .retry t nonblock len => if s.pc t = .again then readSection s t nonblock len else s
  | .write len val => writeSection s len val
  | .signal t => { s with waiting := update s.waiting t false }

/-- Nothing is lost or made up, and nobody sleeps while there is something to read. -/
structure Counts (s : EventSys T) : Prop where
  balance : s.given = s.taken + s.fd.counter.toNat
  awake : ∀ t, s.waiting t = true → s.fd.counter = 0

/-- The sum fits, and the task that a value is for is the one that the counter remembers. -/
def EvOk : EvAct T → Prop
  | .write len val => 8 ≤ len → val ≠ 0xffffffffffffffff →
    s.fd.counter.toNat + val.toNat < 2 ^ 64 ∧
      (s.fd.counter.toNat + val.toNat ≠ 0 → ∀ t, s.waiting t = true → s.waiter = some t)
  | _ => True

variable {s : EventSys T}

theorem Counts.readSection (h : Counts s) (t : T) (nonblock : Bool) (len : ℕ) :
    Counts (readSection s t nonblock len) := by
  have hbal := h.balance
  unfold Event.readSection eventfdRead
  split_ifs with hlen hc hsem
  · exact ⟨h.balance, h.awake⟩
  · refine ⟨?_, fun u hu => absurd (h.awake u hu) hc⟩
    have hpos : s.fd.counter.toNat ≠ 0 := fun h0 => hc (UInt64.toNat_inj.mp h0)
    have hle : (1 : UInt64) ≤ s.fd.counter :=
      UInt64.le_iff_toNat_le.mpr (Nat.one_le_iff_ne_zero.mpr hpos)
    dsimp only
    rw [UInt64.toNat_sub_of_le _ _ hle, UInt64.toNat_one]
    omega
  · exact ⟨by simpa using hbal, fun u hu => rfl⟩
  · have hzero : s.fd.counter = 0 := not_not.mp hc
    cases nonblock
    · exact ⟨hbal, fun u _ => hzero⟩
    · exact ⟨hbal, h.awake⟩

theorem woken_iff {t : T} : s.woken t = true ↔ s.waiting t = true ∧ s.waiter ≠ some t := by
  unfold EventSys.woken
  cases hw : s.waiter with
  | none => simp
  | some w =>
    by_cases ht : t = w
    · simp [ht]
    · simp [ht, Ne.symm ht]

theorem counts_write_iff (h : Counts s) (len : ℕ) (val : UInt64) :
    Counts (evStep s (.write len val)) ↔ EvOk s (.write len val) := by
  have hbal := h.balance
  show Counts (writeSection s len val) ↔ (8 ≤ len → val ≠ 0xffffffffffffffff → _ ∧ _)
  unfold writeSection eventfdWrite
  split_ifs with hlen hmax
  · exact iff_of_true h fun hle => absurd hle (Nat.not_le.mpr hlen)
  · exact iff_of_true h fun _ hne => absurd hmax hne
  · have hsum : (s.fd.counter + val).toNat = (s.fd.counter.toNat + val.toNat) % 2 ^ 64 :=
      UInt64.toNat_add ..
    constructor
    · intro h' _ _
      have hbal' : s.given + val.toNat = s.taken + (s.fd.counter + val).toNat := h'.balance
      have hlt := Nat.mod_lt (s.fd.counter.toNat + val.toNat) (Nat.two_pow_pos 64)
      refine ⟨by omega, fun hne t ht => ?_⟩
      by_contra hw
      have hzero : s.fd.counter + val = 0 := h'.awake t (woken_iff.mpr ⟨ht, hw⟩)
      rw [hzero, UInt64.toNat_zero] at hbal'
      omega
    · intro hok
      obtain ⟨hlt, hw⟩ := hok (Nat.not_lt.mp hlen) hmax
      rw [Nat.mod_eq_of_lt hlt] at hsum
      refine ⟨?_, fun t ht => ?_⟩
      · show s.given + val.toNat = s.taken + (s.fd.counter + val).toNat
        omega
      · obtain ⟨hwait, hne⟩ := woken_iff.mp ht
        by_contra hc
        exact hne (hw (fun h0 => hc (UInt64.toNat_inj.mp (hsum.trans h0))) t hwait)

/-- In a run the counter counts throughout just when every write fits and finds no sleeper but the
one remembered. -/
theorem eventfd_counts (initval : UInt32) (semaphore : Bool) (as : List (EvAct T)) :
    Always evStep Counts (fdEventfd T initval semaphore) as ↔
      Along evStep EvOk (fdEventfd T initval semaphore) as := by
  refine always_iff_along (I := fun _ => True) trivial ⟨by simp [fdEventfd], nofun⟩
    (fun _ _ _ _ _ => trivial) fun s a _ h => ?_
  cases a with
  | write len val => exact counts_write_iff h len val
  | read t nonblock len | retry t nonblock len =>
    refine iff_of_true (?_ : Counts (if _ then _ else _)) trivial
    split
    · exact h.readSection t nonblock len
    · exact h
  | leave t =>
    refine iff_of_true (?_ : Counts (if _ then _ else _)) trivial
    split
    · exact ⟨h.balance, h.awake⟩
    · exact h
  | signal t =>
    refine iff_of_true ⟨h.balance, fun u hu => h.awake u ?_⟩ trivial
    by_cases hut : u = t
    · subst hut
      simp [evStep] at hu
    · simpa [evStep, hut] using hu

/-- Two readers sleep, and one value wakes one of them; two large values leave nothing to read. -/
theorem eventfd_loses :
    ¬ Counts (exec evStep (fdEventfd (Fin 2) 0 false)
      [.read 0 false 8, .read 1 false 8, .write 8 5]) ∧
    ¬ Counts (exec evStep (fdEventfd (Fin 2) 0 false)
      [.write 8 0x8000000000000000, .write 8 0x8000000000000000]) :=
  ⟨fun h => absurd (h.awake 0 (by decide +kernel)) (by decide +kernel),
    fun h => absurd h.balance (by decide +kernel)⟩

end Kyronix.Fs.Event
