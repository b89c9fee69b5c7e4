import Kyronix.Lib.Run

/-! The frame counter of `pmm.c`. A frame is named by its number above the first managed one. LLFree
hands out frames it has, which is an input, and takes back frames it has not. -/
namespace Kyronix.Pmm

open Lib Lib.Run Finset UInt64

def zpoolSize : ℕ := 32
def llfreeMaxOrder : ℕ := 12
def pmmRefMaxFrames : ℕ := 2 ^ 22

structure Frames where
  managed : ℕ
  -- the frames that LLFree has
  free : Finset ℕ
  refs : ℕ → ℕ
  -- the zeroed frames put by, the last one first
  zpool : List ℕ
  freeFrames : UInt64
  -- the frames that callers have been given, kept for the statements
  held : Finset ℕ

def block (frame order : ℕ) : Finset ℕ := Finset.Ico frame (frame + 2 ^ order)

variable (s : Frames)

def llfreeGet (order : ℕ) (answer : Option ℕ) : Option (ℕ × Frames) :=
  match answer with
  | none => none
  | some f =>
    if block f order ⊆ s.free then some (f, { s with free := s.free \ block f order }) else none

def llfreePut (frame order : ℕ) (ok : Bool) : Option Frames :=
  if ok ∧ block frame order ⊆ Finset.range s.managed \ s.free then
    some { s with free := s.free ∪ block frame order }
  else none

def pmmRefIndex (frame : ℕ) : ℕ := frame % 2 ^ 32

def setRefs (frames : List ℕ) (count : ℕ) : Frames :=
  { s with refs := fun i =>
      if i < pmmRefMaxFrames ∧ i ∈ frames.map pmmRefIndex then count else s.refs i }

-- `order` so far and `p = 2 ^ order`; past `2 ^ 63` the loop does not end
def orderLoop (n : UInt64) : (fuel : ℕ) → (p : UInt64) → (order : ℕ) → Option ℕ
  | 0, _, _ => none
  | fuel + 1, p, order =>
    if p < n then orderLoop n fuel (p <<< 1) (order + 1) else some order

def orderForPages (n : UInt64) : Option ℕ := if n = 0 then some 0 else orderLoop n 65 1 0

def pmmAlloc (answer : Option ℕ) : Option ℕ × Frames :=
  match llfreeGet s 0 answer with
  | none => (none, s)
  | some (f, s) => (some f, setRefs { s with freeFrames := s.freeFrames - 1 } [f] 1)

def pmmAllocZeroed (answer : Option ℕ) : Option ℕ × Frames :=
  match s.zpool with
  | f :: rest => (some f, setRefs { s with zpool := rest, freeFrames := s.freeFrames - 1 } [f] 1)
  | [] => pmmAlloc s answer

-- the frames of a block, which the code walks over
def blockFrames (frame order : ℕ) : List ℕ := (List.range (2 ^ order)).map (frame + ·)

def pmmAllocContiguous (n : UInt64) (answer : Option ℕ) : Option ℕ × Frames :=
  if n = 0 then (none, s)
  else if n = 1 then pmmAlloc s answer
  else
    match orderForPages n with
    | none => (none, s)
    | some order =>
      if order > llfreeMaxOrder then (none, s)
      else
        match llfreeGet s order answer with
        | none => (none, s)
        | some (f, s) => (some f,
            setRefs { s with freeFrames := s.freeFrames - UInt64.ofNat (2 ^ order) }
              (blockFrames f order) 1)

-- `none` is the null pointer
def pmmRetain : Option ℕ → Bool × Frames
  | none => (false, s)
  | some f =>
    let i := pmmRefIndex f
    if i ≥ pmmRefMaxFrames then (false, s)
    else if s.refs i = 0 ∨ s.refs i = 65535 then (false, s)
    else (true, { s with refs := Function.update s.refs i (s.refs i + 1) })

def putBack (frame order : ℕ) (ok : Bool) : Frames :=
  match llfreePut s frame order ok with
  | none => s
  | some s => { s with freeFrames := s.freeFrames + UInt64.ofNat (2 ^ order) }

def pmmFree (frame : Option ℕ) (ok : Bool) : Frames :=
  match frame with
  | none => s
  | some f =>
    let i := pmmRefIndex f
    if i < pmmRefMaxFrames then
      if s.refs i = 0 then s
      else
        let s' := { s with refs := Function.update s.refs i (s.refs i - 1) }
        if s.refs i > 1 then s' else putBack s' f 0 ok
    else putBack s f 0 ok

def pmmFreeContiguous (frame : Option ℕ) (n : UInt64) (ok : Bool) : Frames :=
  match frame with
  | none => s
  | some f =>
    if n = 0 then s
    else if n = 1 then pmmFree s (some f) ok
    else
      match orderForPages n with
      | none => s
      | some order =>
        if order > llfreeMaxOrder then s
        else putBack (setRefs s (blockFrames f order) 0) f order ok

def pmmFreePages : UInt64 := s.freeFrames

-- the loop of `pmm_init` that puts zeroed frames by
def fillZpool : (room : ℕ) → List (Option ℕ) → Frames → Frames
  | 0, _, s => s
  | room + 1, answers, s =>
    match pmmAlloc s (answers.headD none) with
    | (none, s) => s
    | (some f, s) => fillZpool room answers.tail { s with zpool := f :: s.zpool }

def pmmInit (m : UInt64) (answers : List (Option ℕ)) : Frames :=
  fillZpool zpoolSize answers
    { managed := m.toNat
      free := Finset.range m.toNat
      refs := fun _ => 0
      zpool := []
      freeFrames := m
      held := ∅ }

inductive PmmOp where
  | alloc (answer : Option ℕ)
  | allocZeroed (answer : Option ℕ)
  | allocContiguous (n : UInt64) (answer : Option ℕ)
  | retain (frame : Option ℕ)
  | free (frame : Option ℕ) (ok : Bool)
  | freeContiguous (frame : Option ℕ) (n : UInt64) (ok : Bool)

-- the caller has what it was given; what LLFree has back nobody has
def given (r : Option ℕ × Frames) (order : ℕ) : Frames :=
  match r with
  | (none, s) => s
  | (some f, s) => { s with held := s.held ∪ block f order }

def returned : Frames := { s with held := s.held \ s.free }

def pmmStep : PmmOp → Frames
  | .alloc answer => given (pmmAlloc s answer) 0
  | .allocZeroed answer => given (pmmAllocZeroed s answer) 0
  | .allocContiguous n answer =>
    given (pmmAllocContiguous s n answer) ((orderForPages n).getD 0)
  | .retain frame => (pmmRetain s frame).2
  | .free frame ok => returned (pmmFree s frame ok)
  | .freeContiguous frame n ok => returned (pmmFreeContiguous s frame n ok)

/-- The counter is the number of frames that no caller has. -/
structure Exact (s : Frames) : Prop where
  count : (pmmFreePages s).toNat = (Finset.range s.managed \ s.held).card
  le : (pmmFreePages s).toNat ≤ s.managed

structure Even (s : Frames) : Prop where
  zpool : s.zpool = []
  small : s.managed < 2 ^ 64
  sub : s.free ⊆ Finset.range s.managed
  held : s.held = Finset.range s.managed \ s.free
  count : s.freeFrames.toNat = s.free.card

variable {s : Frames}

theorem Even.exact (h : Even s) : Exact s := by
  have hcard : s.free.card ≤ s.managed := by
    have := Finset.card_le_card h.sub
    rwa [Finset.card_range] at this
  refine ⟨?_, ?_⟩
  · rw [h.held, Finset.sdiff_sdiff_eq_self h.sub]
    exact h.count
  · rw [pmmFreePages, h.count]
    exact hcard

theorem card_block (f order : ℕ) : (block f order).card = 2 ^ order := by
  rw [block, Nat.card_Ico, Nat.add_sub_cancel_left]

theorem toNat_two_pow {order : ℕ} (h : order ≤ llfreeMaxOrder) :
    (UInt64.ofNat (2 ^ order)).toNat = 2 ^ order := by
  have hpow : 2 ^ order ≤ 2 ^ 12 := Nat.pow_le_pow_right (by norm_num) h
  rw [toNat_ofNat', Nat.mod_eq_of_lt (hpow.trans_lt (by norm_num))]

section

variable {s s' : Frames} {f order : ℕ}

theorem llfreeGet_some {answer : Option ℕ} (hg : llfreeGet s order answer = some (f, s')) :
    block f order ⊆ s.free ∧ s' = { s with free := s.free \ block f order } := by
  unfold llfreeGet at hg
  split at hg
  · cases hg
  · split at hg
    · next hsub =>
      cases hg
      exact ⟨hsub, rfl⟩
    · cases hg

variable (h : Even s)
include h

theorem Even.take {refs : ℕ → ℕ} (hord : order ≤ llfreeMaxOrder) (hsub : block f order ⊆ s.free) :
    Even { s with
      free := s.free \ block f order
      refs := refs
      freeFrames := s.freeFrames - UInt64.ofNat (2 ^ order)
      held := s.held ∪ block f order } := by
  have hcard := card_le_card hsub
  rw [card_block] at hcard
  refine ⟨h.zpool, h.small, sdiff_subset.trans h.sub, ?_, ?_⟩
  · show s.held ∪ block f order = Finset.range s.managed \ (s.free \ block f order)
    rw [h.held]
    ext x
    have hx := @hsub x
    have hrange := @h.sub x
    simp only [mem_union, mem_sdiff]
    tauto
  · show (s.freeFrames - UInt64.ofNat (2 ^ order)).toNat = (s.free \ block f order).card
    have hle : UInt64.ofNat (2 ^ order) ≤ s.freeFrames := by
      rw [UInt64.le_iff_toNat_le, toNat_two_pow hord, h.count]
      exact hcard
    rw [UInt64.toNat_sub_of_le _ _ hle, toNat_two_pow hord, h.count,
      card_sdiff_of_subset hsub, card_block]

theorem Even.pmmAlloc (answer : Option ℕ) : Even (given (pmmAlloc s answer) 0) := by
  unfold Pmm.pmmAlloc
  cases hg : llfreeGet s 0 answer with
  | none => exact h
  | some r =>
    obtain ⟨f, s'⟩ := r
    obtain ⟨hsub, rfl⟩ := llfreeGet_some hg
    exact h.take (Nat.zero_le llfreeMaxOrder) hsub

theorem Even.refs {refs : ℕ → ℕ} : Even { s with refs := refs } :=
  ⟨h.zpool, h.small, h.sub, h.held, h.count⟩

theorem Even.returned : Even (returned s) := by
  refine ⟨h.zpool, h.small, h.sub, ?_, h.count⟩
  show s.held \ s.free = Finset.range s.managed \ s.free
  rw [h.held, Finset.sdiff_idem]

theorem Even.putBack (hord : order ≤ llfreeMaxOrder) (ok : Bool) :
    Even (Pmm.returned (putBack s f order ok)) := by
  unfold Pmm.putBack llfreePut
  split
  · exact h.returned
  · next s' hput =>
    split at hput
    · next hok =>
      cases hput
      obtain ⟨-, hsub⟩ := hok
      have hrange : block f order ⊆ Finset.range s.managed := hsub.trans sdiff_subset
      have hdisj : Disjoint s.free (block f order) :=
        (disjoint_sdiff.mono_right hsub)
      have hfree : s.free ∪ block f order ⊆ Finset.range s.managed :=
        union_subset h.sub hrange
      have hcard : (s.free ∪ block f order).card = s.free.card + 2 ^ order := by
        rw [card_union_of_disjoint hdisj, card_block]
      have hle := card_le_card hfree
      rw [hcard, card_range] at hle
      refine ⟨h.zpool, h.small, hfree, ?_, ?_⟩
      · show s.held \ (s.free ∪ block f order) = Finset.range s.managed \ (s.free ∪ block f order)
        rw [h.held, sdiff_sdiff_left, sup_eq_union, ← union_assoc,
          union_self]
      · show (s.freeFrames + UInt64.ofNat (2 ^ order)).toNat = (s.free ∪ block f order).card
        have hsmall := h.small
        rw [UInt64.toNat_add, toNat_two_pow hord, h.count, hcard]
        omega
    · cases hput

theorem Even.pmmFree (frame : Option ℕ) (ok : Bool) : Even (Pmm.returned (pmmFree s frame ok)) := by
  unfold Pmm.pmmFree
  split
  · exact h.returned
  dsimp only
  split
  · split
    · exact h.returned
    split
    · exact h.refs.returned
    · exact h.refs.putBack (Nat.zero_le _) ok
  · exact h.putBack (Nat.zero_le _) ok

theorem Even.step (op : PmmOp) : Even (pmmStep s op) := by
  cases op with
  | alloc answer => exact h.pmmAlloc answer
  | allocZeroed answer =>
    show Even (given (pmmAllocZeroed s answer) 0)
    unfold pmmAllocZeroed
    rw [h.zpool]
    exact h.pmmAlloc answer
  | allocContiguous n answer =>
    show Even (given (pmmAllocContiguous s n answer) ((orderForPages n).getD 0))
    unfold pmmAllocContiguous
    split
    · exact h
    split
    · next h₁ =>
      have hord : orderForPages n = some 0 := by
        rw [h₁]
        decide
      rw [hord]
      exact h.pmmAlloc answer
    cases orderForPages n with
    | none => exact h
    | some order =>
      dsimp only
      split
      · exact h
      next hord =>
      cases hg : llfreeGet s order answer with
      | none => exact h
      | some r =>
        obtain ⟨f, s'⟩ := r
        obtain ⟨hsub, rfl⟩ := llfreeGet_some hg
        exact h.take (not_lt.mp hord) hsub
  | retain frame =>
    show Even (pmmRetain s frame).2
    unfold pmmRetain
    split
    · exact h
    dsimp only
    split
    · exact h
    split
    · exact h
    · exact h.refs
  | free frame ok => exact h.pmmFree frame ok
  | freeContiguous frame n ok =>
    show Even (Pmm.returned (pmmFreeContiguous s frame n ok))
    unfold pmmFreeContiguous
    split
    · exact h.returned
    split
    · exact h.returned
    split
    · exact h.pmmFree _ ok
    split
    · exact h.returned
    split
    · exact h.returned
    · next hord => exact h.refs.putBack (not_lt.mp hord) ok

end

structure Parked (s : Frames) : Prop where
  held : s.held = ∅
  small : s.managed < 2 ^ 64
  count : s.freeFrames.toNat = s.free.card
  split : s.free.card + s.zpool.length = s.managed

theorem Parked.fillZpool (h : Parked s) (hfree : s.free ⊆ Finset.range s.managed)
    (room : ℕ) (answers : List (Option ℕ)) :
    let s' := fillZpool room answers s
    Parked s' ∧ s'.free ⊆ Finset.range s'.managed := by
  induction room generalizing answers s with
  | zero => exact ⟨h, hfree⟩
  | succ room ih =>
    unfold Pmm.fillZpool pmmAlloc
    cases hg : llfreeGet s 0 (answers.headD none) with
    | none => exact ⟨h, hfree⟩
    | some r =>
      obtain ⟨f, s'⟩ := r
      obtain ⟨hsub, rfl⟩ := llfreeGet_some hg
      have hcard := card_sdiff_of_subset hsub
      have hone : 1 ≤ s.free.card := by
        have := card_le_card hsub
        rwa [card_block] at this
      rw [card_block, pow_zero] at hcard
      refine ih ?_ (sdiff_subset.trans hfree) _
      refine ⟨h.held, h.small, ?_, ?_⟩
      · show (s.freeFrames - 1).toNat = (s.free \ block f 0).card
        have hle : (1 : UInt64) ≤ s.freeFrames := by
          rw [UInt64.le_iff_toNat_le, h.count]
          exact hone
        rw [UInt64.toNat_sub_of_le _ _ hle, h.count, hcard]
        rfl
      · show (s.free \ block f 0).card + (s.zpool.length + 1) = s.managed
        have hsplit := h.split
        omega

theorem pmmInit_parked (m : UInt64) (answers : List (Option ℕ)) :
    Parked (pmmInit m answers) ∧
      (pmmInit m answers).free ⊆ Finset.range (pmmInit m answers).managed := by
  refine Parked.fillZpool ⟨rfl, m.toNat_lt, ?_, ?_⟩ (Finset.Subset.refl _) _ _
  · exact (card_range _).symm
  · exact card_range _

theorem pmmInit_even {m : UInt64} {answers : List (Option ℕ)}
    (h : (pmmInit m answers).zpool = []) : Even (pmmInit m answers) := by
  obtain ⟨hp, hsub⟩ := pmmInit_parked m answers
  have hcard := hp.split
  rw [h, List.length_nil, Nat.add_zero] at hcard
  refine ⟨h, hp.small, hsub, ?_, hp.count⟩
  have hall : (pmmInit m answers).free = Finset.range (pmmInit m answers).managed :=
    Finset.eq_of_subset_of_card_le hsub (by rw [Finset.card_range, hcard])
  rw [hp.held, hall, Finset.sdiff_self]

/-- The counter is exact in every run just when `pmm_init` put no frame by. -/
theorem free_pages_exact_iff (m : UInt64) (answers : List (Option ℕ)) (ops : List PmmOp) :
    Always pmmStep Exact (pmmInit m answers) ops ↔ (pmmInit m answers).zpool = [] := by
  constructor
  · intro h
    have hcount := (h [] (List.nil_prefix)).count
    obtain ⟨hp, -⟩ := pmmInit_parked m answers
    change (pmmInit m answers).freeFrames.toNat =
      (Finset.range (pmmInit m answers).managed \ (pmmInit m answers).held).card at hcount
    rw [hp.held, sdiff_empty, card_range, hp.count, ← hp.split] at hcount
    exact List.eq_nil_of_length_eq_zero (by omega)
  · intro h pre hpre
    have halong : Along pmmStep (fun _ _ => True) (pmmInit m answers) ops := fun _ _ _ => trivial
    have hall := halong.always (pmmInit_even h) (fun s op hs _ => hs.step op)
    exact (hall pre hpre).exact

theorem exec_allocZeroed (pool : List ℕ) (h : s.zpool = pool) :
    let s' := exec pmmStep s (List.replicate pool.length (.allocZeroed none))
    s'.free = s.free ∧ s'.freeFrames = s.freeFrames - UInt64.ofNat pool.length := by
  induction pool generalizing s with
  | nil => exact ⟨rfl, (sub_zero _).symm⟩
  | cons f pool ih =>
    have hstep : pmmStep s (.allocZeroed none) = given (some f,
        setRefs { s with zpool := pool, freeFrames := s.freeFrames - 1 } [f] 1) 0 := by
      show given (pmmAllocZeroed s none) 0 = _
      rw [pmmAllocZeroed, h]
    have hrest : (pmmStep s (.allocZeroed none)).zpool = pool := by
      rw [hstep]
      rfl
    obtain ⟨hfree, hcount⟩ := ih hrest
    refine ⟨hfree.trans (by rw [hstep]; rfl), hcount.trans ?_⟩
    rw [hstep]
    show s.freeFrames - 1 - UInt64.ofNat pool.length = _
    rw [List.length_cons, ofNat_add, add_comm, sub_sub]
    rfl

theorem exec_alloc (fs : List ℕ) (hnd : fs.Nodup) (hsub : ∀ f ∈ fs, f ∈ s.free) :
    (exec pmmStep s (fs.map fun f => .alloc (some f))).freeFrames =
      s.freeFrames - UInt64.ofNat fs.length := by
  induction fs generalizing s with
  | nil => exact (sub_zero _).symm
  | cons f fs ih =>
    obtain ⟨hf, hnd⟩ := List.nodup_cons.mp hnd
    have hblock : block f 0 = {f} := by
      rw [block, pow_zero, Nat.Ico_succ_singleton]
    have hstep : pmmStep s (.alloc (some f)) = given (some f,
        setRefs { s with free := s.free \ {f}, freeFrames := s.freeFrames - 1 } [f] 1) 0 := by
      show given (pmmAlloc s (some f)) 0 = _
      have hin := singleton_subset_iff.mpr (hsub f List.mem_cons_self)
      rw [pmmAlloc, llfreeGet, hblock, if_pos hin]
    have hrest := ih (s := pmmStep s (.alloc (some f))) hnd (by
      intro g hg
      rw [hstep]
      show g ∈ s.free \ {f}
      rw [mem_sdiff, mem_singleton]
      exact ⟨hsub g (List.mem_cons_of_mem f hg), fun he => hf (he ▸ hg)⟩)
    refine hrest.trans ?_
    rw [hstep]
    show s.freeFrames - 1 - UInt64.ofNat fs.length = _
    rw [List.length_cons, ofNat_add, add_comm, sub_sub]
    rfl

-- every frame goes out, first the ones put by
def takeAll (first last : ℕ) : List PmmOp :=
  List.replicate first (.allocZeroed none) ++
    (List.range' first (last - first)).map fun f => .alloc (some f)

theorem exec_takeAll {first last : ℕ} (hlen : s.zpool.length = first)
    (hfree : s.free = Finset.Ico first last) :
    pmmFreePages (exec pmmStep s (takeAll first last)) =
      pmmFreePages s - UInt64.ofNat first - UInt64.ofNat (last - first) := by
  show (exec pmmStep s (takeAll first last)).freeFrames =
    s.freeFrames - UInt64.ofNat first - UInt64.ofNat (last - first)
  obtain ⟨hsame, hzeroed⟩ := exec_allocZeroed s.zpool rfl
  rw [hlen] at hsame hzeroed
  rw [takeAll, exec_append, exec_alloc, hzeroed, List.length_range']
  · exact List.nodup_range'
  · intro f hf
    have hrange := List.mem_range'_1.mp hf
    rw [hsame, hfree, mem_Ico]
    omega

/-- With 512 frames, 32 are put by at once and the counter is at 480 though no caller has any; once
callers have all of them it is below zero. -/
theorem free_pages_wraps :
    let s := pmmInit 512 ((List.range 32).map some)
    pmmFreePages s = 480 ∧ s.held = ∅ ∧
      pmmFreePages (exec pmmStep s (takeAll 32 512)) = 18446744073709551584 := by
  have hcount : pmmFreePages (pmmInit 512 ((List.range 32).map some)) = 480 := by decide +kernel
  have hlen : (pmmInit 512 ((List.range 32).map some)).zpool.length = 32 := by decide +kernel
  have hfree : (pmmInit 512 ((List.range 32).map some)).free = Finset.Ico 32 512 := by
    decide +kernel
  have hwrap := exec_takeAll hlen hfree
  have hval : (480 : UInt64) - UInt64.ofNat 32 - UInt64.ofNat (512 - 32) =
      18446744073709551584 := by
    decide
  rw [hcount, hval] at hwrap
  exact ⟨hcount, (pmmInit_parked _ _).1.held, hwrap⟩

end Kyronix.Pmm
