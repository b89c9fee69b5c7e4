import Mathlib

/-! The ends of waits with a timeout (`time.c`, `poll.c`, `futex.c`, `sig.c`, `eventfd.c`).
`g_ticks` counts milliseconds. -/
namespace Kyronix.Proc.Timed

/-- How a call waits: not at all, until `g_ticks` reaches a deadline, or without a timeout. -/
inductive Wait
  | atOnce
  | until (deadline : UInt64)
  | forever
deriving DecidableEq

open Wait

def toMs (sec sub perMs : UInt64) : UInt64 := sec * 1000 + sub / perMs

def Wait.ofTick (deadline : UInt64) : Wait := if deadline = 0 then .forever else .until deadline

def Wait.after (ticks ms : UInt64) : Wait := .ofTick (if ms = 0 then 0 else ticks + ms)

def sysNanosleep (ticks sec nsec : UInt64) : Wait :=
  let ms := toMs sec nsec 1000000
  if ms = 0 then .atOnce else .until (ticks + ms)

/-- `clock` is the time of the clock that an absolute time (`TIMER_ABSTIME`) is on. -/
def sysClockNanosleep (abstime : Bool) (clock ticks sec nsec : UInt64) : Wait :=
  let target := toMs sec nsec 1000000
  let ms := if abstime = true then (if target > clock then target - clock else 0) else target
  if ms = 0 then .atOnce else .until (ticks + ms)

def futexWait (ticks sec nsec : UInt64) : Wait := .after ticks (toMs sec nsec 1000000)

def timeoutDeadline (ticks delta : UInt64) : UInt64 :=
  if delta < 0xffffffffffffffff - ticks then ticks + delta else 0xfffffffffffffffe

def sysPpoll (ticks sec nsec : UInt64) : Wait :=
  let ms := toMs sec nsec 1000000
  let timeout := if ms > 0x7fffffff then 0x7fffffff else ms
  if timeout = 0 then .atOnce else .until (timeoutDeadline ticks timeout)

def timespecDeadline (ticks sec sub divisor : UInt64) : UInt64 :=
  if sec > 0xfffffffffffffffe / 1000 then 0xfffffffffffffffe
  else
    let delta := toMs sec sub divisor
    if delta ≥ 0xffffffffffffffff - ticks then 0xfffffffffffffffe else ticks + delta

def sysSelect (ticks sec usec : UInt64) : Wait := .until (timespecDeadline ticks sec usec 1000)

def sysRtSigtimedwait (ticks sec nsec : UInt64) : Wait :=
  let ms := toMs sec nsec 1000000
  let deadline := if ms = 0 then 0xffffffffffffffff else ticks + ms
  if deadline = 0xffffffffffffffff then .forever else .until deadline

def sysSetitimer (ticks sec usec : UInt64) : Wait := .after ticks (toMs sec usec 1000)

def fdTimerfdSettime (abstime : Bool) (clock ticks sec nsec : UInt64) : Wait :=
  let ms := toMs sec nsec 1000000
  .ofTick
    (if ms = 0 ∧ sec = 0 ∧ nsec = 0 then 0
    else if abstime = true then (if ms > clock then ticks + (ms - clock) else ticks)
    else ticks + ms)

inductive Site
  | nanosleep
  | clockNanosleep
  | futex
  | ppoll
  | select
  | rtSigtimedwait
  | setitimer
  | timerfd
deriving DecidableEq

open Site

def Site.wait (clock : UInt64) : Site → UInt64 → UInt64 → UInt64 → Wait
  | .nanosleep => sysNanosleep
  | .clockNanosleep => sysClockNanosleep false clock
  | .futex => futexWait
  | .ppoll => sysPpoll
  | .select => sysSelect
  | .rtSigtimedwait => sysRtSigtimedwait
  | .setitimer => sysSetitimer
  | .timerfd => fdTimerfdSettime false clock

/-- `select` and `setitimer` take microseconds, the others nanoseconds. -/
def Site.perMs : Site → UInt64
  | .select | .setitimer => 1000
  | _ => 1000000

variable (s : Site)

def Site.Asks (sec sub : UInt64) : Prop :=
  s = .setitimer ∨ s = .timerfd → sec ≠ 0 ∨ sub ≠ 0

/-- The first tick by which the time asked for has passed. -/
def Site.due (s : Site) (ticks sec sub : UInt64) : ℕ :=
  ticks.toNat + (sec.toNat * 1000 + (sub.toNat + (s.perMs.toNat - 1)) / s.perMs.toNat)

def Wait.Keeps (w : Wait) (ticks : UInt64) (due : ℕ) : Prop :=
  match w with
  | .atOnce => due ≤ ticks.toNat
  | .until deadline => due ≤ deadline.toNat
  | .forever => False

instance (w : Wait) (ticks : UInt64) (due : ℕ) : Decidable (w.Keeps ticks due) := by
  unfold Wait.Keeps
  split <;> infer_instance

/-- Whole milliseconds whose end is neither wrapped around, cut nor taken for no deadline. -/
def Site.Fits (ticks sec sub : UInt64) : Prop :=
  sub.toNat % s.perMs.toNat = 0 ∧
    match s with
    | .futex => s.due ticks sec sub < 2 ^ 64 ∧ (sec ≠ 0 ∨ sub ≠ 0)
    | .rtSigtimedwait => s.due ticks sec sub < 2 ^ 64 - 1 ∧ (sec ≠ 0 ∨ sub ≠ 0)
    | .ppoll =>
      s.due 0 sec sub < 2 ^ 31 ∧ (s.due ticks sec sub < 2 ^ 64 - 1 ∨ sec = 0 ∧ sub = 0)
    | .select => s.due ticks sec sub < 2 ^ 64 - 1
    | _ => s.due ticks sec sub < 2 ^ 64

theorem toMs_toNat (sec sub : UInt64) :
    (toMs sec sub s.perMs).toNat = (sec.toNat * 1000 + sub.toNat / s.perMs.toNat) % 2 ^ 64 := by
  simp [toMs, UInt64.toNat_add, UInt64.toNat_mul, UInt64.toNat_div]

theorem add_toMs_keeps_iff (ticks sec sub : UInt64) :
    (Wait.until (ticks + toMs sec sub s.perMs)).Keeps ticks (s.due ticks sec sub) ↔
      sub.toNat % s.perMs.toNat = 0 ∧ s.due ticks sec sub < 2 ^ 64 := by
  have ht := ticks.toNat_lt
  have hms := toMs_toNat s sec sub
  simp only [Wait.Keeps, UInt64.toNat_add, hms]
  cases s <;> simp only [due, perMs, UInt64.reduceToNat] at * <;> omega

theorem sleep_keeps_iff (ticks ms : UInt64) (due : ℕ) :
    (if ms = 0 then Wait.atOnce else .until (ticks + ms)).Keeps ticks due ↔
      (Wait.until (ticks + ms)).Keeps ticks due := by
  split_ifs with h
  · simp [Wait.Keeps, h]
  · rfl

theorem due_pos (ticks : UInt64) {sec sub : UInt64} (h : sec ≠ 0 ∨ sub ≠ 0) :
    ticks.toNat < s.due ticks sec sub := by
  simp only [ne_eq, ← UInt64.toNat_inj, UInt64.toNat_zero] at h
  cases s <;> simp only [due, perMs, UInt64.reduceToNat] <;> omega

theorem ofTick_keeps_iff (ticks : UInt64) {sec sub : UInt64} (h : sec ≠ 0 ∨ sub ≠ 0) :
    (ofTick (ticks + toMs sec sub s.perMs)).Keeps ticks (s.due ticks sec sub) ↔
      sub.toNat % s.perMs.toNat = 0 ∧ s.due ticks sec sub < 2 ^ 64 := by
  rw [← add_toMs_keeps_iff, ofTick]
  split_ifs with hz
  · simpa [Wait.Keeps, hz] using Nat.ne_of_gt (Nat.zero_lt_of_lt (due_pos s ticks h))
  · rfl

theorem timeoutDeadline_toNat (ticks delta : UInt64) :
    (timeoutDeadline ticks delta).toNat = min (ticks.toNat + delta.toNat) (2 ^ 64 - 2) := by
  have ht := ticks.toNat_lt
  have hd := delta.toNat_lt
  unfold timeoutDeadline
  split_ifs with h <;>
    simp [UInt64.lt_iff_toNat_lt, UInt64.toNat_sub, UInt64.toNat_add] at h ⊢ <;> omega

theorem timespecDeadline_eq (ticks sec sub divisor : UInt64) :
    timespecDeadline ticks sec sub divisor =
      if sec > 0xfffffffffffffffe / 1000 then 0xfffffffffffffffe
      else timeoutDeadline ticks (toMs sec sub divisor) := by
  simp only [timespecDeadline, timeoutDeadline, ge_iff_le, ← UInt64.not_lt, ite_not]

theorem after_keeps_iff (ticks sec sub : UInt64) :
    (after ticks (toMs sec sub s.perMs)).Keeps ticks (s.due ticks sec sub) ↔
      (sub.toNat % s.perMs.toNat = 0 ∧ s.due ticks sec sub < 2 ^ 64) ∧ (sec ≠ 0 ∨ sub ≠ 0) := by
  by_cases h : sec ≠ 0 ∨ sub ≠ 0
  · rw [and_iff_left h, ← ofTick_keeps_iff s ticks h, after]
    split_ifs with hms
    · -- the milliseconds are 0 or wrap around to it, and the sum is `ticks` again
      rw [hms, add_zero]
      have hlt := due_pos s ticks h
      by_cases hz : ticks = 0
      · rw [hz]
      · simpa [ofTick, Wait.Keeps, hz] using hlt
    · rfl
  · obtain ⟨rfl, rfl⟩ : sec = 0 ∧ sub = 0 := by tauto
    simp [toMs, after, ofTick, Wait.Keeps]

/-- A wait for whole milliseconds that end below the limit of the call is the one asked for; any
other ends early or has no timeout. -/
theorem timed_wait_keeps_iff (s : Site) (clock ticks sec sub : UInt64)
    (hsub : sub.toNat < 1000 * s.perMs.toNat) (hask : s.Asks sec sub) :
    (s.wait clock ticks sec sub).Keeps ticks (s.due ticks sec sub) ↔ s.Fits ticks sec sub := by
  have hms := toMs_toNat s sec sub
  have ht := ticks.toNat_lt
  cases s with
  | nanosleep =>
    simpa [wait, sysNanosleep, Site.Fits, perMs, sleep_keeps_iff]
      using add_toMs_keeps_iff .nanosleep ticks sec sub
  | clockNanosleep =>
    simpa [wait, sysClockNanosleep, Site.Fits, perMs, sleep_keeps_iff]
      using add_toMs_keeps_iff .clockNanosleep ticks sec sub
  | futex =>
    simpa [wait, futexWait, Site.Fits, perMs, and_assoc]
      using after_keeps_iff .futex ticks sec sub
  | ppoll =>
    simp only [wait, sysPpoll, Site.Fits, due, perMs] at *
    split_ifs <;>
      simp [Wait.Keeps, timeoutDeadline_toNat, UInt64.lt_iff_toNat_lt, ← UInt64.toNat_inj] at * <;>
      omega
  | select =>
    simp only [wait, sysSelect, timespecDeadline_eq, Site.Fits, due,
      perMs] at *
    split_ifs <;>
      simp [Wait.Keeps, timeoutDeadline_toNat, UInt64.lt_iff_toNat_lt] at * <;>
      omega
  | rtSigtimedwait =>
    simp only [wait, sysRtSigtimedwait, Site.Fits, due, perMs] at *
    split_ifs <;> simp [Wait.Keeps, ← UInt64.toNat_inj, UInt64.toNat_add] at * <;> omega
  | setitimer =>
    have hne : sec ≠ 0 ∨ sub ≠ 0 := hask (.inl rfl)
    have hafter := after_keeps_iff .setitimer ticks sec sub
    rw [and_iff_left hne] at hafter
    simpa [wait, sysSetitimer, Site.Fits, perMs] using hafter
  | timerfd =>
    have hne : sec ≠ 0 ∨ sub ≠ 0 := hask (.inr rfl)
    have hnot : ¬(toMs sec sub 1000000 = 0 ∧ sec = 0 ∧ sub = 0) := by tauto
    simpa [wait, fdTimerfdSettime, Site.Fits, perMs, if_neg hnot]
      using ofTick_keeps_iff .timerfd ticks hne

theorem timed_wait_keeps_iff_second : (sysNanosleep 5 1 0).Keeps 5 1005 ∧ nanosleep.Fits 5 1 0 := by
  have hfits : nanosleep.Fits 5 1 0 := ⟨rfl, by decide⟩
  exact ⟨(timed_wait_keeps_iff .nanosleep 0 5 1 0 (by decide) (by simp [Site.Asks])).mpr hfits,
    hfits⟩

/-- A second less a nanosecond ends a millisecond early; half a millisecond is no wait or one
without end; a year for `ppoll` is cut to 25 days, and a long `select` ends at once. -/
theorem timed_waits_end_early :
    [(nanosleep, 5, 0, 999999999), (nanosleep, 5, 0, 500000), (futex, 5, 0, 500000),
      (futex, 5, 0, 0), (rtSigtimedwait, 5, 0, 500000), (setitimer, 5, 0, 500),
      (ppoll, 5, 31536000, 0), (select, 0, 18446744073709551, 616000),
      (nanosleep, 5, 18446744073709552, 0)].Forall fun x =>
      ¬ (x.1.wait 0 x.2.1 x.2.2.1 x.2.2.2).Keeps x.2.1 (x.1.due x.2.1 x.2.2.1 x.2.2.2) := by
  decide

end Kyronix.Proc.Timed
