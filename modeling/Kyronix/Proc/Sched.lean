import Kyronix.Lib.Rotation
import Kyronix.Proc.Ns

/-! The choice of the next process (`proc_next_ready` and `sched_claim_next` in `proc.c`). A mask is
the set of its bits, which the loops take from the lowest on. -/
namespace Kyronix.Proc

open Lib.Rotation Function Finset

inductive PState
  | unused
  | running
  | ready
  | waiting
  | zombie
  | dying
  | stopped
  | embryo
  | quarantined
deriving DecidableEq

structure ReadyTable where
  ready : Fin procMax → Bool
  pid : Fin procMax → ℕ
  state : Fin procMax → PState

variable {T U : ReadyTable} {skip : Option (Fin procMax)} {last b c t : Fin procMax} {k : ℕ}

def eligible (T : ReadyTable) (skip : Option (Fin procMax)) (b : Fin procMax) : Bool :=
  T.ready b && decide (skip ≠ some b) && decide (T.pid b ≠ 0)

def procNextReady (last : Fin procMax) (T : ReadyTable) (skip : Option (Fin procMax)) :
    Option (Fin procMax) × Fin procMax :=
  match pick (after last) (eligible T skip) with
  | some b => (some b, b)
  | none => (none, last)

/-- The loops of `proc_next_ready` over a word whose lowest bit has number `start`. -/
def maskLoop (test : ℕ → Bool) (start : ℕ) (mask : BitVec 64) : Option ℕ :=
  if mask = 0 then none
  else
    let bit := mask.ctz.toNat + start
    if test bit then some bit else maskLoop test start (mask &&& (mask - 1))
termination_by mask.toNat
decreasing_by
  rw [BitVec.toNat_and]
  exact Nat.and_le_right.trans_lt (by bv_omega)

section

variable {test : ℕ → Bool} {start n i : ℕ} {mask : BitVec 64}

theorem getLsbD_dropLowest (hne : mask ≠ 0) (hi : i ≠ mask.ctz.toNat) :
    (mask &&& (mask - 1)).getLsbD i = mask.getLsbD i := by
  rw [BitVec.getLsbD_and]
  rcases hi.lt_or_gt with hlt | hgt
  · rw [BitVec.getLsbD_false_of_lt_ctz hlt, Bool.false_and]
  -- below bit `i` there is one, so that nothing is borrowed from it
  have hmod : mask.toNat % 2 ^ i ≠ 0 := by
    intro h0
    have hbit := Nat.testBit_mod_two_pow mask.toNat i mask.ctz.toNat
    rw [h0, Nat.zero_testBit, decide_eq_true hgt, Bool.true_and] at hbit
    exact nomatch (BitVec.getLsbD_true_ctz_of_ne_zero hne).symm.trans hbit.symm
  have hdiv : (mask.toNat - 1) / 2 ^ i = mask.toNat / 2 ^ i := by
    have hlt : mask.toNat % 2 ^ i - 1 < 2 ^ i :=
      (Nat.sub_le _ _).trans_lt (Nat.mod_lt _ (Nat.two_pow_pos i))
    nth_rewrite 1 [← Nat.div_add_mod mask.toNat (2 ^ i)]
    rw [Nat.add_sub_assoc (Nat.pos_of_ne_zero hmod), Nat.mul_add_div (Nat.two_pow_pos i),
      Nat.div_eq_of_lt hlt, Nat.add_zero]
  have hsub : (mask - 1).toNat = mask.toNat - 1 := by bv_omega
  have heq : (mask - 1).getLsbD i = mask.getLsbD i := by
    simp only [BitVec.getLsbD, Nat.testBit, Nat.shiftRight_eq_div_pow, hsub, hdiv]
  rw [heq, Bool.and_self]

theorem maskLoop_eq (h : ∀ i, mask.getLsbD i = true → i + start < n) :
    maskLoop test start mask = (List.range n).find? fun i =>
      decide (start ≤ i) && mask.getLsbD (i - start) && test i := by
  fun_induction maskLoop test start mask with
  | case1 => exact (List.find?_eq_none.mpr (by simp)).symm
  | case2 mask hne bit ht =>
    have hbit := BitVec.getLsbD_true_ctz_of_ne_zero hne
    refine (List.find?_range_eq_some.mpr ⟨?_, List.mem_range.mpr (h _ hbit), fun j hj => ?_⟩).symm
    · simp [bit, ht, hbit]
    · by_cases hs : start ≤ j
      · rw [BitVec.getLsbD_false_of_lt_ctz (by omega)]
        simp
      · simp [hs]
  | case3 mask hne bit ht ih =>
    rw [ih fun i hi => h i (Bool.and_eq_true_iff.mp (BitVec.getLsbD_and ▸ hi)).1]
    refine congrArg (List.find? · _) (funext fun i => ?_)
    by_cases hi : i - start = mask.ctz.toNat
    · by_cases hs : start ≤ i
      · have : i = bit := by omega
        simp [this, ht]
      · simp [hs]
    · rw [getLsbD_dropLowest hne hi]

theorem find_range (p : ℕ → Bool) : (List.range procMax).find? p =
    ((List.finRange procMax).find? fun b => p b.val).map Fin.val := by
  rw [← List.map_coe_finRange_eq_range, List.find?_map]
  rfl

/-- The loops over the two parts of the mask take what `procNextReady` does. -/
theorem procNextReady_masks (hm : ∀ b : Fin procMax, mask.getLsbD b = T.ready b)
    (ht : ∀ b : Fin procMax, test b = (decide (skip ≠ some b) && decide (T.pid b ≠ 0))) :
    (procNextReady last T skip).1.map Fin.val =
      (maskLoop test (after last) (mask >>> (after last).val)).or
        (maskLoop test 0 (mask &&& (1#64 <<< (after last).val - 1))) := by
  have hres : (procNextReady last T skip).1 = pick (after last) (eligible T skip) := by
    unfold procNextReady
    split <;> next h => exact h.symm
  generalize after last = start at *
  have hpow : ∀ start : Fin 64, (1#64 <<< start.val - 1).toNat = 2 ^ start.val - 1 := by decide
  rw [hres, pick, Option.map_or, maskLoop_eq (n := procMax), maskLoop_eq (n := procMax), find_range,
    find_range]
  · congr 3 <;> funext b <;>
      simp only [eligible, ← hm, ← ht, Bool.and_assoc, BitVec.getLsbD_and, Nat.sub_zero]
    · by_cases hb : start ≤ b
      · rw [BitVec.getLsbD_ushiftRight, Nat.add_sub_cancel' hb]
        rfl
      · rw [decide_eq_false hb, decide_eq_false (show ¬ start.val ≤ b from hb)]
        rfl
    · rw [BitVec.getLsbD.eq_def (_ - 1), hpow, Nat.testBit_two_pow_sub_one, Bool.and_left_comm]
      simp
  · exact fun i hi => BitVec.lt_of_getLsbD hi
  · intro i hi
    rw [BitVec.getLsbD_ushiftRight, Nat.add_comm] at hi
    exact BitVec.lt_of_getLsbD hi

end

def ReadyTable.clearReady (T : ReadyTable) (b : Fin procMax) : ReadyTable :=
  { T with ready := update T.ready b false }

structure Claim where
  next : Option (Fin procMax)
  last : Fin procMax
  table : ReadyTable

/-- The tries of `sched_claim_next`, when nobody else changes the table. A bit whose process is not
ready is dropped. -/
def claimFrom (skip : Option (Fin procMax)) : ℕ → Fin procMax → ReadyTable → Claim
  | 0, last, T => ⟨none, last, T⟩
  | tries + 1, last, T =>
    match procNextReady last T skip with
    | (none, last) => ⟨none, last, T⟩
    | (some b, last) =>
      if T.state b = .ready then
        ⟨some b, last, { T.clearReady b with state := update T.state b .running }⟩
      else claimFrom skip tries last (T.clearReady b)

def schedClaimNext (last : Fin procMax) (T : ReadyTable) (skip : Option (Fin procMax)) : Claim :=
  claimFrom skip procMax last T

def nextReadyCalls : Fin procMax → List (ReadyTable × Option (Fin procMax)) →
    List (Option (Fin procMax))
  | _, [] => []
  | last, v :: vs =>
    (procNextReady last v.1 v.2).1 :: nextReadyCalls (procNextReady last v.1 v.2).2 vs

theorem nextReadyCalls_eq (last : Fin procMax) (vs : List (ReadyTable × Option (Fin procMax))) :
    nextReadyCalls last vs = scans last (vs.map fun v => eligible v.1 v.2) := by
  induction vs generalizing last with
  | nil => rfl
  | cons v vs ih =>
    rw [List.map_cons, scans, nextReadyCalls, ih]
    unfold procNextReady
    cases pick (after last) (eligible v.1 v.2) with
    | none => rfl
    | some b => rfl

theorem eligible_iff : eligible T skip b = true ↔
    T.ready b = true ∧ skip ≠ some b ∧ T.pid b ≠ 0 := by
  unfold eligible
  rw [Bool.and_eq_true, Bool.and_eq_true, decide_eq_true_iff, decide_eq_true_iff, and_assoc]

theorem mem_nextReadyCalls {vs : List (ReadyTable × Option (Fin procMax))}
    (hlen : vs.length = procMax) (ht : ∀ v ∈ vs, eligible v.1 v.2 t = true) :
    some t ∈ nextReadyCalls last vs := by
  rw [nextReadyCalls_eq]
  refine mem_scans (fun p hp => ?_) ?_
  · obtain ⟨v, hv, rfl⟩ := List.mem_map.mp hp
    exact ht v hv
  · rw [List.length_map, hlen]
    exact gap_lt _ _

def Claimable (T : ReadyTable) (skip : Option (Fin procMax)) (b : Fin procMax) : Prop :=
  eligible T skip b = true ∧ T.state b = .ready

/-- A claim takes a process that is there to be taken, or there is none, and besides only drops
stale bits. -/
structure ClaimOk (T : ReadyTable) (skip : Option (Fin procMax)) (r : Claim) : Prop where
  none : r.next = none → ∀ b, ¬ Claimable T skip b
  some : ∀ b, r.next = some b → Claimable T skip b ∧ r.table.ready b = false
  pid : r.table.pid = T.pid
  state : r.table.state = (r.next.elim T.state fun b => update T.state b .running)
  bits : ∀ c, r.next ≠ .some c → r.table.ready c ≠ T.ready c →
    T.ready c = true ∧ T.state c ≠ .ready ∧ r.table.ready c = false

theorem clearReady_self (T : ReadyTable) (b : Fin procMax) : (T.clearReady b).ready b = false :=
  update_self ..

theorem clearReady_of_ne (h : c ≠ b) : (T.clearReady b).ready c = T.ready c :=
  update_of_ne h _ _

def load (T : ReadyTable) (skip : Option (Fin procMax)) : ℕ :=
  (Finset.univ.filter fun b => eligible T skip b = true).card

theorem load_clearReady (h : eligible T skip b = true) :
    load (T.clearReady b) skip < load T skip := by
  apply card_lt_card
  refine ssubset_iff_of_subset (fun c hc => ?_) |>.mpr ⟨b, by simpa using h, ?_⟩
  · rw [mem_filter, eligible_iff] at hc ⊢
    obtain ⟨-, hready, hrest⟩ := hc
    refine ⟨mem_univ c, ?_, hrest⟩
    by_cases hcb : c = b
    · rw [hcb]
      exact (eligible_iff.mp h).1
    · rwa [clearReady_of_ne hcb] at hready
  · rw [mem_filter, eligible_iff]
    rintro ⟨-, hready, -⟩
    rw [clearReady_self] at hready
    cases hready

theorem ClaimOk.stale {r : Claim} (hb : eligible T skip b = true) (hstale : T.state b ≠ .ready)
    (h : ClaimOk (T.clearReady b) skip r) : ClaimOk T skip r := by
  have hclaim : ∀ c, Claimable T skip c ↔ Claimable (T.clearReady b) skip c := by
    intro c
    unfold Claimable
    by_cases hc : c = b
    · exact iff_of_false (fun h => hstale (hc ▸ h.2)) fun h => hstale (hc ▸ h.2)
    · rw [eligible_iff, eligible_iff, clearReady_of_ne hc]
      rfl
  refine ⟨fun hnone c hc => h.none hnone c ((hclaim c).mp hc), fun c hc => ?_, h.pid, h.state, ?_⟩
  · exact ⟨(hclaim c).mpr (h.some c hc).1, (h.some c hc).2⟩
  · intro c hc hne
    by_cases hcb : c = b
    · have hset := (eligible_iff.mp hb).1
      rw [hcb] at hne ⊢
      exact ⟨hset, hstale, by simpa [hset] using hne⟩
    · have hsame : (T.clearReady b).ready c = T.ready c := clearReady_of_ne hcb
      rw [← hsame] at hne ⊢
      exact h.bits c hc hne

theorem claimFrom_ok (h : load T skip ≤ k) : ClaimOk T skip (claimFrom skip k last T) := by
  induction k generalizing last T with
  | zero =>
    have hempty := card_eq_zero.mp (Nat.le_zero.mp h)
    refine ⟨fun _ b hb => ?_, fun b hb => (nomatch hb), rfl, rfl, fun c _ hne => absurd rfl hne⟩
    have hmem : b ∈ Finset.univ.filter fun b => eligible T skip b = true := by simpa using hb.1
    rw [hempty] at hmem
    cases hmem
  | succ k ih =>
    unfold claimFrom procNextReady
    cases hpick : pick (after last) (eligible T skip) with
    | none =>
      refine ⟨fun _ b hb => ?_, fun b hb => (nomatch hb), rfl, rfl, fun c _ hne => absurd rfl hne⟩
      exact absurd hb.1 (by simp [pick_none hpick b])
    | some b =>
      have hb := (pick_some hpick).1
      dsimp only
      split
      · next hstate =>
        refine ⟨fun hnone => (nomatch hnone), fun c hc => ?_, rfl, rfl, fun c hc hne => ?_⟩
        · cases hc
          exact ⟨⟨hb, hstate⟩, clearReady_self T b⟩
        · refine absurd (clearReady_of_ne ?_) hne
          rintro rfl
          exact hc rfl
      · next hstate =>
        refine .stale hb hstate (ih ?_)
        have := load_clearReady hb
        omega

/-- A process whose bit stays set is found within as many calls as there are slots. A claim finds a
ready process just when there is one, marks it as running, and clears its bit and stale ones only.
-/
theorem round_robin_fair :
    (∀ (last : Fin procMax) (vs : List (ReadyTable × Option (Fin procMax))) (t : Fin procMax),
      vs.length = procMax → (∀ v ∈ vs, v.1.ready t = true ∧ v.2 ≠ some t ∧ v.1.pid t ≠ 0) →
      some t ∈ nextReadyCalls last vs) ∧
    ∀ (last : Fin procMax) (T : ReadyTable) (skip : Option (Fin procMax)),
      ((schedClaimNext last T skip).next.isSome = true ↔
        ∃ b, T.ready b = true ∧ skip ≠ some b ∧ T.pid b ≠ 0 ∧ T.state b = .ready) ∧
      ∀ b, (schedClaimNext last T skip).next = some b →
        (T.ready b = true ∧ skip ≠ some b ∧ T.pid b ≠ 0 ∧ T.state b = .ready) ∧
        (schedClaimNext last T skip).table.state = update T.state b .running ∧
        (schedClaimNext last T skip).table.pid = T.pid ∧
        (schedClaimNext last T skip).table.ready b = false ∧
        ∀ c, c ≠ b → (schedClaimNext last T skip).table.ready c ≠ T.ready c →
          T.ready c = true ∧ T.state c ≠ .ready ∧
            (schedClaimNext last T skip).table.ready c = false := by
  have hok : ∀ (last : Fin procMax) (T : ReadyTable) (skip : Option (Fin procMax)),
      ClaimOk T skip (schedClaimNext last T skip) := fun last T skip =>
    claimFrom_ok ((card_le_univ _).trans (Fintype.card_fin _).le)
  have hclaim : ∀ {T : ReadyTable} {skip : Option (Fin procMax)} {b : Fin procMax},
      Claimable T skip b ↔ T.ready b = true ∧ skip ≠ some b ∧ T.pid b ≠ 0 ∧ T.state b = .ready := by
    intro T skip b
    unfold Claimable
    rw [eligible_iff, and_assoc, and_assoc]
  refine ⟨fun last vs t hlen ht => ?_, fun last T skip => ⟨⟨fun hsome => ?_, ?_⟩, fun b hb => ?_⟩⟩
  · exact mem_nextReadyCalls hlen fun v hv => eligible_iff.mpr (ht v hv)
  · obtain ⟨b, hb⟩ := Option.isSome_iff_exists.mp hsome
    exact ⟨b, hclaim.mp ((hok last T skip).some b hb).1⟩
  · rintro ⟨b, hb⟩
    by_contra hnone
    exact (hok last T skip).none (by simpa using hnone) b (hclaim.mpr hb)
  · have h := hok last T skip
    obtain ⟨hc, hready⟩ := h.some b hb
    refine ⟨hclaim.mp hc, ?_, h.pid, hready, fun c hne => ?_⟩
    · rw [h.state, hb]
      rfl
    · refine h.bits c fun heq => hne ?_
      rw [hb] at heq
      exact (Option.some.inj heq).symm

-- one stale bit before the only ready process
example : (schedClaimNext 0 ⟨fun b => b = 3 || b = 5, fun _ => 1,
    fun b => if b = 5 then .ready else .waiting⟩ none).next = some 5 := by decide

end Kyronix.Proc
