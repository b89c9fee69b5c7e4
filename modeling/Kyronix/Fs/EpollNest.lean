import Kyronix.Lib.Deps
import Kyronix.Fs.Epoll

/-! Epoll sets that watch epoll sets: whether the search for something ready comes to an end. -/
namespace Kyronix.Fs.Epoll

open Lib.Run Lib.Deps Function List Relation

abbrev epollSlots : ℕ := 64
abbrev epollMaxNest : ℕ := 4

/-- `file` is what is behind a number: nothing, a handle of a set, or another file. -/
structure Nest where
  file : ℕ → Option (Option (Fin epollSlots))
  used : ℕ
  sets : Fin epollSlots → List Watch

def Nest.lookup (s : Nest) (fd : ℕ) : Option (Fin epollSlots) := (s.file fd).join

section

variable (s : Nest) (poll : ℕ → Poll)

/-- `ready` is `epoll_ready_depth` at depth 0. -/
def fdPollin (ready : Fin epollSlots → Option Bool) (fd : ℕ) : Option Bool :=
  match s.file fd with
  | none => some false
  | some (some ep) => ready ep
  | some none => some (poll fd).pollin

def fdPollout (fd : ℕ) : Bool :=
  match s.file fd with
  | some none => (poll fd).pollout
  | _ => false

def fdPollhup (fd : ℕ) : Bool :=
  match s.file fd with
  | some none => (poll fd).pollhup
  | _ => false

def watchReady (ready : Fin epollSlots → Fin (epollMaxNest + 1) → Option Bool)
    (depth : Fin (epollMaxNest + 1)) (w : Watch) : Option Bool :=
  match if depth < Fin.last epollMaxNest then s.lookup w.fd else none with
  | some nested => ready nested (depth + 1)
  | none =>
    if s.file w.fd = none then some true
    else (if w.events &&& epollin ≠ 0 then fdPollin s poll (ready · 0) w.fd else some false).map
      (· || w.events &&& epollout != 0 && fdPollout s poll w.fd || fdPollhup s poll w.fd)

def firstReady (f : Watch → Option Bool) : List Watch → Option Bool
  | [] => some false
  | w :: ws => (f w).bind fun b => if b then some true else firstReady f ws

/-- `none` is a search that goes deeper than `fuel` calls. -/
def epollReadyDepth : ℕ → Fin epollSlots → Fin (epollMaxNest + 1) → Option Bool
  | 0, _, _ => none
  | fuel + 1, ep, depth =>
    firstReady (watchReady s poll (epollReadyDepth fuel) depth) (s.sets ep)

end

inductive NestAct
  | create1 (fd : ℕ)
  | ctl (epfd : ℕ) (op : Op) (fd : ℕ) (ev : Option EpollEvent) (access : Bool)
  | dup (oldfd newfd : ℕ)

/-- New numbers are ones not in use. As nothing is closed, the slots are taken in order. -/
def nestStep (s : Nest) : NestAct → Nest
  | .create1 fd =>
    if h : s.used < epollSlots ∧ s.file fd = none then
      { s with file := update s.file fd (some (some ⟨s.used, h.1⟩)), used := s.used + 1 }
    else s
  | .ctl epfd op fd ev access =>
    match s.lookup epfd with
    | none => s
    | some ep =>
      let r := sysEpollCtl (s.sets ep) op fd ev (s.file fd).isSome access
      { s with sets := update s.sets ep r.2 }
  | .dup oldfd newfd =>
    if s.file newfd = none then { s with file := update s.file newfd (s.file oldfd) } else s

def Nest.init (isOpen : ℕ → Bool) : Nest where
  file fd := if isOpen fd then some none else none
  used := 0
  sets _ := []

/-- The search in `x` can lead to that in `y`: at the last depth through `fd_pollin`, which begins
anew. -/
def Calls (s : Nest) (x y : Fin epollSlots × Fin (epollMaxNest + 1)) : Prop :=
  y.2 = x.2 + 1 ∧ ∃ w ∈ s.sets x.1, s.lookup w.fd = some y.1 ∧
    (x.2 = Fin.last epollMaxNest → w.events &&& epollin ≠ 0)

variable {s : Nest} {poll : ℕ → Poll}
  {ready : Fin epollSlots → Fin (epollMaxNest + 1) → Option Bool}
  {depth : Fin (epollMaxNest + 1)} {w : Watch} {ws : List Watch} {f : Watch → Option Bool}

theorem firstReady_none (h : firstReady f ws = none) : ∃ w ∈ ws, f w = none := by
  induction ws with
  | nil => cases h
  | cons w ws ih =>
    rcases hw : f w with _ | _ | _
    · exact ⟨w, mem_cons_self, hw⟩
    · obtain ⟨v, hv, hnone⟩ := ih (by simpa [firstReady, hw] using h)
      exact ⟨v, mem_cons_of_mem w hv, hnone⟩
    · simp [firstReady, hw] at h

theorem firstReady_of_none (hf : ∀ w ∈ ws, f w ≠ some true) (hw : w ∈ ws) (h : f w = none) :
    firstReady f ws = none := by
  induction ws with
  | nil => cases hw
  | cons v ws ih =>
    rcases hv : f v with _ | _ | _
    · simp [firstReady, hv]
    · have hmem : w ∈ ws := (mem_cons.mp hw).resolve_left fun heq => by
        rw [heq, hv] at h
        cases h
      simpa [firstReady, hv] using ih (fun u hu => hf u (mem_cons_of_mem v hu)) hmem
    · exact absurd hv (hf v mem_cons_self)

theorem firstReady_quiet (hf : ∀ w ∈ ws, f w ≠ some true) : firstReady f ws ≠ some true := by
  induction ws with
  | nil => nofun
  | cons v ws ih =>
    have hrest := ih fun u hu => hf u (mem_cons_of_mem v hu)
    have hv := hf v mem_cons_self
    rcases hfv : f v with _ | _ | _
    · simp [firstReady, hfv]
    · simpa [firstReady, hfv] using hrest
    · exact absurd hfv hv

theorem file_of_lookup {fd : ℕ} {ep : Fin epollSlots} (h : s.lookup fd = some ep) :
    s.file fd = some (some ep) := by
  rwa [Nest.lookup, Option.join_eq_some_iff] at h

theorem watchReady_handle {ep : Fin epollSlots} (h : s.lookup w.fd = some ep) :
    watchReady s poll ready depth w =
      if depth = Fin.last epollMaxNest ∧ w.events &&& epollin = 0 then some false
      else ready ep (depth + 1) := by
  have hfile := file_of_lookup h
  by_cases hlast : depth = Fin.last epollMaxNest
  · subst hlast
    have hzero : Fin.last epollMaxNest + 1 = 0 := by decide
    by_cases hin : w.events &&& epollin = 0
    · simp [watchReady, hfile, hin, fdPollout, fdPollhup]
    · simp [watchReady, hfile, hin, fdPollout, fdPollhup, fdPollin, hzero]
  · have hlt : depth < Fin.last epollMaxNest := Fin.lt_last_iff_ne_last.mpr hlast
    simp [watchReady, hlt, h, hlast]

def Nest.Valid (s : Nest) : Prop := ∀ ep, ∀ w ∈ s.sets ep, s.file w.fd ≠ none

def quiet : ℕ → Poll := fun _ => ⟨false, false, false⟩

theorem watchReady_other (h : s.lookup w.fd = none) :
    watchReady s poll ready depth w ≠ none ∧
      (s.file w.fd ≠ none → poll = quiet → watchReady s poll ready depth w = some false) := by
  rcases hfile : s.file w.fd with _ | _ | ep
  · simp [watchReady, h, hfile]
  · constructor
    · by_cases hin : w.events &&& epollin = 0 <;> simp [watchReady, h, hfile, hin, fdPollin]
    · rintro - rfl
      simp [watchReady, h, hfile, fdPollin, fdPollout, fdPollhup, quiet]
  · simp [Nest.lookup, hfile] at h

theorem epollReadyDepth_none {n : ℕ} {x : Fin epollSlots × Fin (epollMaxNest + 1)}
    (h : epollReadyDepth s poll (n + 1) x.1 x.2 = none) :
    ∃ y, Calls s x y ∧ epollReadyDepth s poll n y.1 y.2 = none := by
  obtain ⟨w, hw, hnone⟩ := firstReady_none h
  cases hlook : s.lookup w.fd with
  | none => exact absurd hnone (watchReady_other hlook).1
  | some ep =>
    rw [watchReady_handle hlook] at hnone
    split_ifs at hnone with hskip
    exact ⟨(ep, x.2 + 1), ⟨rfl, w, hw, hlook, fun hlast hin => hskip ⟨hlast, hin⟩⟩, hnone⟩

theorem watchReady_quiet (hready : ∀ ep d, ready ep d ≠ some true) (hw : s.file w.fd ≠ none) :
    watchReady s quiet ready depth w ≠ some true := by
  cases hlook : s.lookup w.fd with
  | none =>
    rw [(watchReady_other hlook).2 hw rfl]
    nofun
  | some ep =>
    rw [watchReady_handle hlook]
    split_ifs
    · nofun
    · exact hready ep (depth + 1)

theorem epollReadyDepth_quiet (hvalid : s.Valid) (n : ℕ)
    (ep : Fin epollSlots) (depth : Fin (epollMaxNest + 1)) :
    epollReadyDepth s quiet n ep depth ≠ some true := by
  induction n generalizing ep depth with
  | zero => nofun
  | succ n ih => exact firstReady_quiet fun w hw => watchReady_quiet ih (hvalid ep w hw)

theorem epollReadyDepth_cycle (hvalid : s.Valid)
    {x : Fin epollSlots × Fin (epollMaxNest + 1)} (hx : TransGen (Calls s) x x) (n : ℕ) :
    epollReadyDepth s quiet n x.1 x.2 = none := by
  induction n generalizing x with
  | zero => rfl
  | succ n ih =>
    obtain ⟨y, hcall, hback⟩ := TransGen.head'_iff.mp hx
    have hnone := ih (.tail' hback hcall)
    obtain ⟨hdepth, w, hw, hlook, hin⟩ := hcall
    refine firstReady_of_none (fun v hv => ?_) hw ?_
    · exact watchReady_quiet (epollReadyDepth_quiet hvalid n) (hvalid x.1 v hv)
    · rw [watchReady_handle hlook, if_neg fun h => hin h.1 h.2, ← hdepth]
      exact hnone

theorem mem_sysEpollCtl {op : Op} {fd : ℕ} {ev : Option EpollEvent} {valid access : Bool}
    (h : w ∈ (sysEpollCtl ws op fd ev valid access).2) : w ∈ ws ∨ w.fd = fd ∧ valid = true := by
  rcases sysEpollCtl_cases ws op fd ev valid access with ⟨e, he, hr⟩ | ⟨hvalid, hr⟩ <;> rw [hr] at h
  · exact .inl h
  rcases ctlLocked_cases ws op fd ev with
    ⟨e, he, hr⟩ | ⟨rfl, -, x, hx, -, hr⟩ | ⟨-, x, ws', -, hperm, hr⟩ |
      ⟨rfl, i, x, hx, -, -, -, hr⟩ <;>
    rw [hr] at h
  · exact .inl h
  · refine (mem_append.mp h).imp_right fun h => ?_
    exact ⟨by rw [mem_singleton.mp h, hx], hvalid nofun⟩
  · exact .inl (hperm.mem_iff.mpr (mem_cons_of_mem x h))
  · refine (mem_or_eq_of_mem_set h).imp_right fun h => ?_
    exact ⟨by rw [h, hx], hvalid nofun⟩

theorem Nest.Valid.open (h : s.Valid) {fd : ℕ} (hfd : s.file fd = none)
    (file : Option (Option (Fin epollSlots))) (used : ℕ) :
    Nest.Valid ⟨update s.file fd file, used, s.sets⟩ := by
  intro ep w hw
  have hne : w.fd ≠ fd := fun heq => h ep w hw (heq ▸ hfd)
  simpa [hne] using h ep w hw

theorem Nest.Valid.step (h : s.Valid) (a : NestAct) : (nestStep s a).Valid := by
  cases a with
  | create1 fd =>
    simp only [nestStep]
    split_ifs with hfree
    · exact h.open hfree.2 _ _
    · exact h
  | ctl epfd op fd ev access =>
    simp only [nestStep]
    split
    · exact h
    · next ep hep =>
      intro ep' w hw
      by_cases heq : ep' = ep
      · subst heq
        rcases mem_sysEpollCtl (by simpa using hw) with hw | ⟨rfl, hvalid⟩
        · exact h ep' w hw
        · exact Option.isSome_iff_ne_none.mp hvalid
      · exact h ep' w (by simpa [heq] using hw)
  | dup oldfd newfd =>
    simp only [nestStep]
    split_ifs with hfree
    · exact h.open hfree _ _
    · exact h

theorem valid_run (isOpen : ℕ → Bool) (as : List NestAct) :
    (exec nestStep (Nest.init isOpen) as).Valid := by
  have hrun : Along nestStep (fun _ _ => True) (Nest.init isOpen) as := fun _ _ _ => trivial
  exact hrun.always (P := Nest.Valid) (fun _ _ hw => nomatch hw) (fun _ a h _ => h.step a) as
    prefix_rfl

def maxCalls : ℕ := epollSlots * (epollMaxNest + 1)

theorem card_nodes : Nat.card (Fin epollSlots × Fin (epollMaxNest + 1)) = maxCalls := by
  simp [maxCalls]

theorem epoll_search_ends_iff (isOpen : ℕ → Bool) (as : List NestAct) :
    let s := exec nestStep (Nest.init isOpen) as
    (∀ poll, (∀ ep depth, (epollReadyDepth s poll maxCalls ep depth).isSome) ∧
      ∀ fd, (fdPollin s poll (epollReadyDepth s poll maxCalls · 0) fd).isSome) ↔
      ∀ x, ¬ TransGen (Calls s) x x := by
  intro s
  have hvalid : s.Valid := valid_run isOpen as
  constructor
  · intro h x hx
    have hends := (h quiet).1 x.1 x.2
    rw [epollReadyDepth_cycle hvalid hx] at hends
    cases hends
  · intro h poll
    have hends : ∀ ep depth, (epollReadyDepth s poll maxCalls ep depth).isSome := by
      intro ep depth
      have hnot := not_stuck_of_acyclic (P := fun n x => epollReadyDepth s poll n x.1 x.2 = none) h
        (fun n x => epollReadyDepth_none) (ep, depth)
      rwa [card_nodes, ← ne_eq, ← Option.isSome_iff_ne_none] at hnot
    refine ⟨hends, fun fd => ?_⟩
    unfold fdPollin
    split
    · rfl
    · exact hends _ 0
    · rfl

theorem epoll_search_loops :
    let s := exec nestStep (Nest.init (· < 3))
      [.create1 3, .ctl 3 .add 3 (some ⟨epollin, 0⟩) true]
    ∀ fuel, fdPollin s quiet (epollReadyDepth s quiet fuel · 0) 3 = none := by
  intro s fuel
  have hself : (⟨3, epollin, 0⟩ : Watch) ∈ s.sets 0 := by decide
  have hcall : ∀ d, Calls s (0, d) (0, d + 1) :=
    fun d => ⟨rfl, ⟨3, epollin, 0⟩, hself, rfl, fun _ => by decide⟩
  have hloop : TransGen (Calls s) (0, 0) (0, 0) :=
    ((((TransGen.single (hcall 0)).tail (hcall 1)).tail (hcall 2)).tail (hcall 3)).tail (hcall 4)
  exact epollReadyDepth_cycle (valid_run _ _) hloop fuel

end Kyronix.Fs.Epoll
