import Kyronix.Errno
import Kyronix.Lib.Run

/-! The watches of an epoll set (`epoll.c`): what `epoll_ctl` makes of the list, and what
`epoll_wait` reports of it. -/
namespace Kyronix.Fs.Epoll

open Lib.Run Function List

def epollin : UInt32 := 0x001
def epollout : UInt32 := 0x004
def epollerr : UInt32 := 0x008
def epollhup : UInt32 := 0x010
def epolloneshot : UInt32 := 0x40000000
def epollMaxw : ℕ := 256

structure Watch where
  fd : ℕ
  events : UInt32
  data : UInt64
deriving DecidableEq

open Watch

structure EpollEvent where
  events : UInt32
  data : UInt64
deriving DecidableEq

inductive Op
  | add
  | del
  | mod
deriving DecidableEq

/-- `ev` is what the pointer of the caller leads to, if there is one. -/
def ctlLocked (w : List Watch) (op : Op) (fd : ℕ) (ev : Option EpollEvent) : ℤ × List Watch :=
  match op, w.findIdx? (fun x => x.fd = fd) with
  | .add, i =>
    if epollMaxw ≤ w.length then (-enomem, w)
    else if i.isSome then (-eexist, w)
    else match ev with
      | none => (0, w ++ [⟨fd, epollin ||| epollout, 0⟩])
      | some ev => (0, w ++ [⟨fd, ev.events, ev.data⟩])
  | _, none => (-enoent, w)
  | .del, some i => (0, (w.set i (w.getLastD ⟨0, 0, 0⟩)).dropLast)
  | .mod, some i => (0, w.set i (match ev with
    | none => ⟨fd, 0, 0⟩
    | some ev => ⟨fd, ev.events, ev.data⟩))

def sysEpollCtl (w : List Watch) (op : Op) (fd : ℕ) (ev : Option EpollEvent) (valid access : Bool) :
    ℤ × List Watch :=
  if op ≠ .del ∧ ev.isSome ∧ access = false then (-efault, w)
  else if op ≠ .del ∧ valid = false then (-ebadf, w)
  else ctlLocked w op fd ev

structure Poll where
  pollin : Bool
  pollout : Bool
  pollhup : Bool

def Watch.got (w : Watch) : Option Poll → UInt32
  | none => epollerr ||| epollhup
  | some p =>
    (if w.events &&& epollin ≠ 0 ∧ p.pollin = true then epollin else 0) |||
      (if w.events &&& epollout ≠ 0 ∧ p.pollout = true then epollout else 0) |||
      if p.pollhup = true then epollhup else 0

def Watch.disarm (w : Watch) : Watch :=
  if w.events &&& epolloneshot ≠ 0 then
    { w with events := w.events &&& ~~~ (epollin ||| epollout) } else w

def scan (poll : ℕ → Option Poll) : ℕ → List Watch → List (ℕ × EpollEvent) × List Watch
  | 0, ws => ([], ws)
  | _ + 1, [] => ([], [])
  | n + 1, w :: ws =>
    if w.got (poll w.fd) ≠ 0 then
      let r := scan poll n ws
      ((w.fd, ⟨w.got (poll w.fd), w.data⟩) :: r.1, w.disarm :: r.2)
    else
      let r := scan poll (n + 1) ws
      (r.1, w :: r.2)

/-- What was last said about a number: its open file then, its word, and whether it has been
reported since. -/
structure Reg where
  file : ℕ
  data : UInt64
  reported : Bool

structure Sys where
  file : ℕ → Option ℕ
  next : ℕ
  watches : List Watch
  reg : ℕ → Option Reg

inductive Act
  | ctl (op : Op) (fd : ℕ) (ev : Option EpollEvent) (access : Bool)
  | close (fd : ℕ)
  | open (fd : ℕ)
  | wait (maxevents : ℕ) (poll : ℕ → Poll)

def Sys.poll (s : Sys) (poll : ℕ → Poll) (fd : ℕ) : Option Poll := (s.file fd).map fun _ => poll fd

def given : Option EpollEvent → UInt64
  | none => 0
  | some ev => ev.data

def Sys.register (s : Sys) (fd : ℕ) (ev : Option EpollEvent) : Sys :=
  { s with reg := update s.reg fd ((s.file fd).map fun f => ⟨f, given ev, false⟩) }

def epStep (s : Sys) : Act → Sys
  | .ctl op fd ev access =>
    let r := sysEpollCtl s.watches op fd ev (s.file fd).isSome access
    if r.1 ≠ 0 then { s with watches := r.2 }
    else if op = .del then { s with watches := r.2, reg := update s.reg fd none }
    else { s with watches := r.2 }.register fd ev
  | .close fd => { s with file := update s.file fd none }
  | .open fd =>
    if s.file fd = none then
      { s with file := update s.file fd (some s.next), next := s.next + 1 } else s
  | .wait maxevents poll =>
    let r := scan (s.poll poll) maxevents s.watches
    { s with
      watches := r.2
      reg := fun fd => (s.reg fd).map fun g =>
        { g with reported := g.reported || decide (fd ∈ r.1.map Prod.fst) } }

def Right (s : Sys) : Act → Prop
  | .ctl op fd ev access =>
    let r := sysEpollCtl s.watches op fd ev (s.file fd).isSome access
    (r.1 ≠ 0 → r.2 = s.watches) ∧
      (r.1 = 0 → op = .add → ∃ x : Watch, x.fd = fd ∧ r.2 = s.watches ++ [x]) ∧
      (r.1 = 0 → op = .del → ∃ x : Watch, x.fd = fd ∧ s.watches.Perm (x :: r.2))
  | .wait maxevents poll =>
    let evs := (scan (s.poll poll) maxevents s.watches).1
    (evs.map Prod.fst).Nodup ∧
      (∀ e ∈ evs, ∃ w ∈ s.watches, ∃ g, w.fd = e.1 ∧ s.reg e.1 = some g ∧
        s.file e.1 = some g.file ∧ e.2 = ⟨w.got (some (poll e.1)), g.data⟩ ∧ e.2.events ≠ 0 ∧
        (w.events &&& epolloneshot ≠ 0 → g.reported = false)) ∧
      ∀ w ∈ s.watches, w.got (s.poll poll w.fd) ≠ 0 →
        w.fd ∈ evs.map Prod.fst ∨ evs.length = maxevents
  | _ => True

/-- No registered descriptor is closed, and what was to be reported once has no hang-up after. -/
def EpOk (s : Sys) : Act → Prop
  | .close fd => ∀ w ∈ s.watches, w.fd ≠ fd
  | .wait _ poll => ∀ w ∈ s.watches, w.events &&& epolloneshot ≠ 0 →
    ∀ g, s.reg w.fd = some g → g.reported = true → (poll w.fd).pollhup = false
  | _ => True

def Watch.Known (w : Watch) (reg : Option Reg) (file : Option ℕ) : Prop :=
  ∃ g, reg = some g ∧ file = some g.file ∧ g.data = w.data ∧
    (g.reported = true → w.events &&& epolloneshot ≠ 0 → w.events &&& (epollin ||| epollout) = 0)

structure Inv (s : Sys) : Prop where
  nodup : (s.watches.map fd).Nodup
  known : ∀ w ∈ s.watches, w.Known (s.reg w.fd) (s.file w.fd)

variable {poll : ℕ → Option Poll} {n : ℕ} {ws : List Watch}

@[simp] theorem fd_disarm (w : Watch) : w.disarm.fd = w.fd := by
  unfold disarm
  split <;> rfl

theorem scan_sublist : ((scan poll n ws).1.map Prod.fst).Sublist (ws.map fd) := by
  fun_induction scan poll n ws with
  | case1 ws => exact nil_sublist _
  | case2 n => exact nil_sublist _
  | case3 n w ws hgot r ih => exact ih.cons_cons w.fd
  | case4 n w ws hgot r ih => exact ih.cons w.fd

theorem scan_mem {e : ℕ × EpollEvent} (he : e ∈ (scan poll n ws).1) :
    ∃ w ∈ ws, e = (w.fd, ⟨w.got (poll w.fd), w.data⟩) ∧ w.got (poll w.fd) ≠ 0 := by
  fun_induction scan poll n ws with
  | case1 ws => cases he
  | case2 n => cases he
  | case3 n w ws hgot r ih =>
    rcases mem_cons.mp he with rfl | he
    · exact ⟨w, by simp, rfl, hgot⟩
    · obtain ⟨v, hv, h⟩ := ih he
      exact ⟨v, mem_cons_of_mem w hv, h⟩
  | case4 n w ws hgot r ih =>
    obtain ⟨v, hv, h⟩ := ih he
    exact ⟨v, mem_cons_of_mem w hv, h⟩

theorem scan_all {w : Watch} (hw : w ∈ ws) (hready : w.got (poll w.fd) ≠ 0) :
    w.fd ∈ (scan poll n ws).1.map Prod.fst ∨ (scan poll n ws).1.length = n := by
  fun_induction scan poll n ws with
  | case1 ws => exact .inr rfl
  | case2 n => cases hw
  | case3 n v ws hgot r ih =>
    rcases mem_cons.mp hw with rfl | hw
    · exact .inl (by simp)
    · exact (ih hw).imp (mem_cons_of_mem _) fun h => by simpa using h
  | case4 n v ws hgot r ih =>
    rcases mem_cons.mp hw with rfl | hw
    · exact absurd hready hgot
    · exact ih hw

theorem scan_fds : (scan poll n ws).2.map fd = ws.map fd := by
  fun_induction scan poll n ws with
  | case1 ws => rfl
  | case2 n => rfl
  | case3 n w ws hgot r ih => simpa using ih
  | case4 n w ws hgot r ih => simpa using ih

theorem scan_watch (hnodup : (ws.map fd).Nodup) {w' : Watch} (hw : w' ∈ (scan poll n ws).2) :
    ∃ w ∈ ws, w'.fd = w.fd ∧ (w' = w ∧ w.fd ∉ (scan poll n ws).1.map Prod.fst ∨ w' = w.disarm) := by
  fun_induction scan poll n ws with
  | case1 ws => exact ⟨w', hw, rfl, .inl ⟨rfl, by simp⟩⟩
  | case2 n => cases hw
  | case3 n w ws hgot r ih =>
    obtain ⟨hout, hnodup⟩ := nodup_cons.mp hnodup
    rcases mem_cons.mp hw with rfl | hw
    · exact ⟨w, by simp, fd_disarm w, .inr rfl⟩
    · obtain ⟨v, hv, hfd, hleft⟩ := ih hnodup hw
      refine ⟨v, mem_cons_of_mem w hv, hfd, hleft.imp_left fun h => ⟨h.1, ?_⟩⟩
      have hne : v.fd ≠ w.fd := fun heq => hout (heq ▸ mem_map_of_mem hv)
      simpa [hne] using h.2
  | case4 n w ws hgot r ih =>
    obtain ⟨hout, hnodup⟩ := nodup_cons.mp hnodup
    rcases mem_cons.mp hw with rfl | hw
    · exact ⟨w', by simp, rfl, .inl ⟨rfl, fun h => hout (scan_sublist.subset h)⟩⟩
    · obtain ⟨v, hv, h⟩ := ih hnodup hw
      exact ⟨v, mem_cons_of_mem w hv, h⟩

theorem del_perm {i : ℕ} (hi : i < ws.length) (d : Watch) :
    ws.Perm (ws[i] :: (ws.set i (ws.getLastD d)).dropLast) := by
  obtain ⟨l, z, rfl⟩ := (eq_nil_or_concat ws).resolve_left (ne_nil_of_length_pos (by omega))
  simp only [concat_eq_append] at hi ⊢
  have hlast : (l ++ [z]).getLastD d = z := by simp
  refine (perm_append_singleton z l).trans ?_
  rcases Nat.lt_or_ge i l.length with hin | hend
  · -- the last one takes the place of the one that goes
    rw [hlast, set_append_left _ _ hin, dropLast_concat, getElem_append_left hin]
    have hset : (l.set i z).Perm (z :: l.eraseIdx i) := set_perm_cons_eraseIdx hin z
    have hall : (l[i] :: l.eraseIdx i).Perm l := getElem_cons_eraseIdx_perm hin
    exact ((hset.cons l[i]).trans ((Perm.swap _ _ _).trans (hall.cons z))).symm
  · obtain rfl : i = l.length := by simp at hi; omega
    simp

theorem findIdx_fd {fd i : ℕ} (h : ws.findIdx? (fun x => x.fd = fd) = some i) :
    ∃ hi : i < ws.length, (ws[i]).fd = fd := by
  obtain ⟨hi, hfd, -⟩ := findIdx?_eq_some_iff_getElem.mp h
  exact ⟨hi, by simpa using hfd⟩

theorem ctlLocked_cases (w : List Watch) (op : Op) (fd : ℕ) (ev : Option EpollEvent) :
    (∃ e : ℤ, e ≠ 0 ∧ ctlLocked w op fd ev = (e, w)) ∨
      (op = .add ∧ fd ∉ w.map Watch.fd ∧ ∃ x : Watch, x.fd = fd ∧
        x.data = given ev ∧
        ctlLocked w op fd ev = (0, w ++ [x])) ∨
      (op = .del ∧ ∃ x : Watch, ∃ w', x.fd = fd ∧ w.Perm (x :: w') ∧
        ctlLocked w op fd ev = (0, w')) ∨
      (op = .mod ∧ ∃ i, ∃ x : Watch, x.fd = fd ∧
        x.data = given ev ∧
        x ∈ w.set i x ∧ (w.set i x).map Watch.fd = w.map Watch.fd ∧
        ctlLocked w op fd ev = (0, w.set i x)) := by
  unfold ctlLocked
  split
  · split
    · exact .inl ⟨-enomem, by decide, rfl⟩
    split
    · exact .inl ⟨-eexist, by decide, rfl⟩
    next hfind =>
    have hout : fd ∉ w.map Watch.fd := by simpa [findIdx?_eq_none_iff] using hfind
    refine .inr (.inl ⟨rfl, hout, ?_⟩)
    cases ev with
    | none => exact ⟨⟨fd, epollin ||| epollout, 0⟩, rfl, rfl, rfl⟩
    | some ev => exact ⟨⟨fd, ev.events, ev.data⟩, rfl, rfl, rfl⟩
  · exact .inl ⟨-enoent, by decide, rfl⟩
  · next i hfind =>
    obtain ⟨hi, hfd⟩ := findIdx_fd hfind
    exact .inr (.inr (.inl ⟨rfl, w[i], _, hfd, del_perm hi ⟨0, 0, 0⟩, rfl⟩))
  · next i hfind =>
    obtain ⟨hi, hfd⟩ := findIdx_fd hfind
    have hsame (x : Watch) (hx : x.fd = fd) : (w.set i x).map Watch.fd = w.map Watch.fd := by
      rw [map_set, hx, ← hfd, ← getElem_map Watch.fd (h := by simpa using hi), set_getElem_self]
    refine .inr (.inr (.inr ⟨rfl, i, ?_⟩))
    cases ev with
    | none => exact ⟨⟨fd, 0, 0⟩, rfl, rfl, mem_set hi _, hsame _ rfl, rfl⟩
    | some ev => exact ⟨⟨fd, ev.events, ev.data⟩, rfl, rfl, mem_set hi _, hsame _ rfl, rfl⟩

theorem sysEpollCtl_cases (w : List Watch) (op : Op) (fd : ℕ) (ev : Option EpollEvent)
    (valid access : Bool) :
    (∃ e : ℤ, e ≠ 0 ∧ sysEpollCtl w op fd ev valid access = (e, w)) ∨
      (op ≠ .del → valid = true) ∧ sysEpollCtl w op fd ev valid access = ctlLocked w op fd ev := by
  unfold sysEpollCtl
  split_ifs with haccess hvalid
  · exact .inl ⟨-efault, by decide, rfl⟩
  · exact .inl ⟨-ebadf, by decide, rfl⟩
  · exact .inr ⟨fun hop => by simpa [hop] using hvalid, rfl⟩

theorem right_ctl (s : Sys) (op : Op) (fd : ℕ) (ev : Option EpollEvent) (access : Bool) :
    Right s (.ctl op fd ev access) := by
  unfold Right
  rcases sysEpollCtl_cases s.watches op fd ev (s.file fd).isSome access with
    ⟨e, he, h⟩ | ⟨-, h⟩
  · simp [h, he]
  · rcases ctlLocked_cases s.watches op fd ev with
      ⟨e, he, hr⟩ | ⟨rfl, -, x, hx, -, hr⟩ | ⟨rfl, x, w', hx, hw, hr⟩ | ⟨rfl, i, x, -, -, -, -, hr⟩
    · simp [h, hr, he]
    · simpa [h, hr] using hx
    · simpa [h, hr] using ⟨x, hx, hw⟩
    · simp [h, hr]

variable {s : Sys}

theorem Inv.register (h : Inv s) {x : Watch} {ev : Option EpollEvent}
    (hnodup : (ws.map fd).Nodup) (hx : x ∈ ws) (hold : ∀ y ∈ ws, y ≠ x → y ∈ s.watches)
    (hvalid : (s.file x.fd).isSome = true) (hdata : x.data = given ev) :
    Inv ({ s with watches := ws }.register x.fd ev) := by
  obtain ⟨f, hf⟩ := Option.isSome_iff_exists.mp hvalid
  refine ⟨hnodup, fun y hy => ?_⟩
  by_cases heq : y = x
  · subst heq
    exact ⟨⟨f, given ev, false⟩, by simp [Sys.register, hf], hf, hdata.symm, nofun⟩
  · have hne : y.fd ≠ x.fd := fun hfd => heq (inj_on_of_nodup_map hnodup hy hx hfd)
    simpa [Sys.register, hne] using h.known y (hold y hy heq)

theorem Inv.ctl (h : Inv s) (op : Op) (fd : ℕ) (ev : Option EpollEvent) (access : Bool) :
    Inv (epStep s (.ctl op fd ev access)) := by
  rcases sysEpollCtl_cases s.watches op fd ev (s.file fd).isSome access with
    ⟨e, he, hsys⟩ | ⟨hvalid, hsys⟩
  · simpa [epStep, hsys, he] using h
  rcases ctlLocked_cases s.watches op fd ev with
    ⟨e, he, hr⟩ | ⟨rfl, hout, x, rfl, hdata, hr⟩ | ⟨rfl, x, w', rfl, hw, hr⟩ |
    ⟨rfl, i, x, rfl, hdata, hx, hfds, hr⟩
  · simpa [epStep, hsys, hr, he] using h
  · have hnodup : ((s.watches ++ [x]).map Watch.fd).Nodup := by
      rw [map_append]
      exact h.nodup.append (nodup_singleton _) (by simpa using hout)
    simp only [epStep, hsys, hr]
    exact h.register hnodup (by simp)
      (fun y hy hne => (mem_append.mp hy).resolve_right (by simpa using hne)) (hvalid nofun) hdata
  · have hnodup : (x.fd :: w'.map Watch.fd).Nodup := (hw.map Watch.fd).nodup_iff.mp h.nodup
    obtain ⟨hout, hnodup⟩ := nodup_cons.mp hnodup
    simp only [epStep, hsys, hr]
    refine ⟨hnodup, fun y hy => ?_⟩
    have hne : y.fd ≠ x.fd := fun heq => hout (heq ▸ mem_map_of_mem hy)
    simpa [hne] using h.known y (hw.mem_iff.mpr (mem_cons_of_mem x hy))
  · simp only [epStep, hsys, hr]
    exact h.register (hfds ▸ h.nodup) hx (fun y hy => (mem_or_eq_of_mem_set hy).resolve_right)
      (hvalid nofun) hdata

theorem Inv.close (h : Inv s) {fd : ℕ} (hok : EpOk s (.close fd)) : Inv (epStep s (.close fd)) := by
  refine ⟨h.nodup, fun w hw => ?_⟩
  have hne : w.fd ≠ fd := hok w hw
  simpa [epStep, hne] using h.known w hw

theorem Inv.open (h : Inv s) (fd : ℕ) : Inv (epStep s (.open fd)) := by
  by_cases hfree : s.file fd = none
  · simp only [epStep, hfree, if_true]
    refine ⟨h.nodup, fun w hw => ?_⟩
    have hknown := h.known w hw
    have hne : w.fd ≠ fd := by
      rintro rfl
      obtain ⟨g, -, hfile, -⟩ := hknown
      exact nomatch hfree.symm.trans hfile
    simpa [hne] using hknown
  · simpa [epStep, hfree] using h

theorem disarm_events {w : Watch} (h : w.disarm.events &&& epolloneshot ≠ 0) :
    w.disarm.events &&& (epollin ||| epollout) = 0 := by
  unfold disarm at *
  split_ifs at * with hshot
  · rw [UInt32.and_assoc]
    have : ~~~ (epollin ||| epollout) &&& (epollin ||| epollout) = 0 := by decide
    rw [this, UInt32.and_zero]
  · exact absurd h hshot

@[simp] theorem data_disarm (w : Watch) : w.disarm.data = w.data := by
  unfold disarm
  split <;> rfl

theorem Inv.wait (h : Inv s) (maxevents : ℕ) (poll : ℕ → Poll) :
    Inv (epStep s (.wait maxevents poll)) := by
  refine ⟨(scan_fds (n := maxevents) ▸ h.nodup :), fun w' hw => ?_⟩
  obtain ⟨w, hw, hfd, hleft⟩ := scan_watch h.nodup hw
  obtain ⟨g, hg, hfile, hdata, hshot⟩ := h.known w hw
  simp only [epStep, hfd, hg, hfile]
  refine ⟨_, rfl, rfl, ?_⟩
  rcases hleft with ⟨rfl, hout⟩ | rfl
  · refine ⟨hdata, fun hrep => hshot ?_⟩
    simpa [hout] using hrep
  · exact ⟨by simpa using hdata, fun _ => disarm_events⟩

theorem and_eq_zero_of_mask {a m b : UInt32} (h : a &&& m = 0) (hb : m &&& b = b) :
    a &&& b = 0 := by
  rw [← hb, ← UInt32.and_assoc, h, UInt32.zero_and]

theorem right_wait (h : Inv s) {maxevents : ℕ} {poll : ℕ → Poll}
    (hok : EpOk s (.wait maxevents poll)) : Right s (.wait maxevents poll) := by
  refine ⟨scan_sublist.nodup h.nodup, fun e he => ?_, fun w hw => scan_all hw⟩
  obtain ⟨w, hw, rfl, hgot⟩ := scan_mem he
  obtain ⟨g, hg, hfile, hdata, hshot⟩ := h.known w hw
  have hpoll : s.poll poll w.fd = some (poll w.fd) := by simp [Sys.poll, hfile]
  rw [hpoll] at hgot ⊢
  refine ⟨w, hw, g, rfl, hg, hfile, by rw [hdata], hgot, fun hone => ?_⟩
  -- reported before, it has neither interest left, and no hang-up to report
  by_contra hrep
  have hrep : g.reported = true := by simpa using hrep
  have hhup := hok w hw hone g hg hrep
  have hnone := hshot hrep hone
  have hin : w.events &&& epollin = 0 := and_eq_zero_of_mask hnone (by decide)
  have hout : w.events &&& epollout = 0 := and_eq_zero_of_mask hnone (by decide)
  exact hgot (by simp [got, hin, hout, hhup])

theorem Inv.step (h : Inv s) {a : Act} (hok : EpOk s a) : Inv (epStep s a) := by
  cases a with
  | ctl op fd ev access => exact h.ctl op fd ev access
  | close fd => exact h.close hok
  | «open» fd => exact h.open fd
  | wait maxevents poll => exact h.wait maxevents poll

theorem right_of_inv (h : Inv s) {a : Act} (hok : EpOk s a) : Right s a := by
  cases a with
  | ctl op fd ev access => exact right_ctl s op fd ev access
  | close fd => trivial
  | «open» fd => trivial
  | wait maxevents poll => exact right_wait h hok

def Sys.init (file : ℕ → Option ℕ) (next : ℕ) : Sys := ⟨file, next, [], fun _ => none⟩

theorem inv_init (file : ℕ → Option ℕ) (next : ℕ) : Inv (Sys.init file next) :=
  ⟨nodup_nil, fun _ hw => nomatch hw⟩

theorem epoll_reports_registered (file : ℕ → Option ℕ) (next : ℕ) (as : List Act)
    (hok : Along epStep EpOk (Sys.init file next) as) :
    Along epStep Right (Sys.init file next) as ∧
      Always epStep (fun s => (s.watches.map fd).Nodup) (Sys.init file next) as := by
  have hinv : Always epStep Inv (Sys.init file next) as :=
    hok.always (inv_init file next) fun _ _ h => h.step
  refine ⟨fun pre a hpre => ?_, fun pre hpre => (hinv pre hpre).nodup⟩
  exact right_of_inv (hinv pre ((prefix_append pre [a]).trans hpre)) (hok pre a hpre)

-- the set itself is behind descriptor 3
def oneFile : Sys := Sys.init (fun fd => if fd = 4 then some 0 else none) 1

def onePoll : List Act :=
  [.ctl .add 4 (some ⟨epollin, 7⟩) true, .wait 1 fun _ => ⟨true, false, false⟩]

theorem epoll_reports_registered_once :
    Along epStep EpOk oneFile onePoll ∧ Along epStep Right oneFile onePoll := by
  have hok : Along epStep EpOk oneFile onePoll :=
    along_cons.mpr ⟨trivial, along_cons.mpr ⟨fun _ _ _ _ _ _ => rfl, along_nil⟩⟩
  exact ⟨hok, (epoll_reports_registered _ _ _ hok).1⟩

/-- The number of a registered file is closed and taken again; what was to be reported once has
hung up. -/
theorem epoll_reports_others :
    ¬ Right (exec epStep oneFile [.ctl .add 4 (some ⟨epollin, 7⟩) true, .close 4, .open 4])
        (.wait 1 fun _ => ⟨true, false, false⟩) ∧
      ¬ Right (exec epStep oneFile [.ctl .add 4 (some ⟨epolloneshot, 7⟩) true,
          .wait 1 fun _ => ⟨false, false, true⟩]) (.wait 1 fun _ => ⟨false, false, true⟩) := by
  constructor
  · rintro ⟨-, h, -⟩
    obtain ⟨w, -, g, -, hreg, hfile, -⟩ := h (4, ⟨epollin, 7⟩) (by decide +kernel)
    obtain rfl : ⟨0, 7, false⟩ = g := Option.some.inj hreg
    exact absurd hfile (by decide)
  · rintro ⟨-, h, -⟩
    obtain ⟨w, hw, g, -, hreg, -, -, -, honce⟩ := h (4, ⟨epollhup, 7⟩) (by decide +kernel)
    obtain rfl := mem_singleton.mp (show w ∈ [_] from hw)
    obtain rfl : ⟨0, 7, true⟩ = g := Option.some.inj hreg
    exact absurd (honce (by decide +kernel)) (by decide)

end Kyronix.Fs.Epoll
