import Kyronix.Security.Seccomp

/-! Programs that `bpf_valid` accepts: where their jumps lead, and which of them return. -/
namespace Kyronix.Security

open List

variable {prog : Prog} {data : ℕ → UInt8}

def Insn.targets (insn : Insn) (pc : UInt32) : List UInt32 :=
  if insn.code.toUInt32 &&& 0x07 ≠ 0x05 then []
  else if insn.code.toUInt32 &&& 0xf0 = 0x00 then [pc + (1 + insn.k)]
  else [pc + (1 + insn.jt.toUInt32), pc + (1 + insn.jf.toUInt32)]

def Insn.scratch (insn : Insn) : Option ℕ :=
  let cls := insn.code.toUInt32 &&& 0x07
  let mode := insn.code.toUInt32 &&& 0xe0
  if cls = 0x02 ∨ cls = 0x03 ∨ (cls = 0x00 ∨ cls = 0x01) ∧ mode = 0x60 then some insn.k.toNat
  else none

def bpfFetches (prog : Prog) (data : ℕ → UInt8) : ℕ → Bpf → List ℕ
  | 0, _ => []
  | fuel + 1, st =>
    match prog[st.pc.toNat]? with
    | none => []
    | some insn =>
      st.pc.toNat :: match bpfStep data insn st with
        | .inl _ => []
        | .inr st => bpfFetches prog data fuel st

structure Bounded (prog : Prog) : Prop where
  jumps : ∀ (pc : ℕ) (insn : Insn), prog[pc]? = some insn → ∀ t ∈ insn.targets (UInt32.ofNat pc),
    pc < t.toNat ∧ t.toNat < prog.length
  fetches : ∀ data fuel, (bpfFetches prog data fuel bpfInit).Pairwise (· < ·) ∧
    ∀ pc ∈ bpfFetches prog data fuel bpfInit, pc < prog.length
  steps : ∀ data fuel, (bpfFetches prog data fuel bpfInit).length ≤ prog.length
  returns : ∀ data, ∃ r, bpfRun prog data (prog.length + 1) bpfInit = some r
  scratch : ∀ insn ∈ prog, ∀ k ∈ insn.scratch, 16 ≤ k →
    ∀ data st, bpfStep data insn st = .inl retKillProcess

def Forward (prog : Prog) : Prop :=
  ∀ (pc : ℕ) (insn : Insn), prog[pc]? = some insn → ¬ insn.JumpsBack pc

theorem bpfValid_spec (h : bpfValid prog = true) :
    prog.length ≤ 4096 ∧
      ∀ (pc : ℕ) (insn : Insn), prog[pc]? = some insn → insnValid prog.length insn pc = true := by
  simp only [bpfValid, Bool.and_eq_true, decide_eq_true_eq, all_eq_true] at h
  exact ⟨h.1.2, fun pc insn hpc => h.2 (insn, pc) (mk_mem_zipIdx_iff_getElem?.mpr hpc)⟩

theorem bpfStep_scratch {insn : Insn} {k : ℕ} (h : insn.scratch = some k) (hk : 16 ≤ k)
    (data : ℕ → UInt8) (st : Bpf) : bpfStep data insn st = .inl retKillProcess := by
  unfold Insn.scratch at h
  dsimp only at h
  split at h
  · next hcls =>
    cases h
    have hcell : st.cell insn.k = none := dif_neg hk.not_gt
    have hset : ∀ v, st.setCell insn.k v = none := fun v => dif_neg hk.not_gt
    rcases hcls with h2 | h3 | ⟨h0 | h1, hm⟩
    · simp [bpfStep, h2, hset]
    · simp [bpfStep, h3, hset]
    · simp [bpfStep, bpfLd, h0, hm, hcell]
    · simp [bpfStep, bpfLdx, h1, hm, hcell]
  · cases h

theorem bpfFetches_sorted (hlen : prog.length ≤ 4096) (hfwd : Forward prog) (data : ℕ → UInt8)
    (fuel : ℕ) (st : Bpf) :
    (bpfFetches prog data fuel st).Pairwise (· < ·) ∧
      ∀ pc ∈ bpfFetches prog data fuel st, st.pc.toNat ≤ pc ∧ pc < prog.length := by
  induction fuel generalizing st with
  | zero => exact ⟨.nil, nofun⟩
  | succ fuel ih =>
    unfold bpfFetches
    split
    · exact ⟨.nil, nofun⟩
    next insn hinsn =>
      have hlt : st.pc.toNat < prog.length := (List.getElem?_eq_some_iff.mp hinsn).1
      split
      · simpa using hlt
      next st' hgo =>
        have hmore := bpfStep_forward hgo (hlt.trans_le hlen) (hfwd _ insn hinsn)
        obtain ⟨hsorted, hin⟩ := ih st'
        refine ⟨pairwise_cons.mpr ⟨fun pc hpc => hmore.trans_le (hin pc hpc).1, hsorted⟩, ?_⟩
        rintro pc (_ | ⟨_, hpc⟩)
        · exact ⟨le_rfl, hlt⟩
        · exact ⟨hmore.le.trans (hin pc hpc).1, (hin pc hpc).2⟩

theorem toNat_ofNat_place {pc : ℕ} (h : pc < 4096) : (UInt32.ofNat pc).toNat = pc :=
  UInt32.toNat_ofNat_of_lt' (h.trans (by decide))

theorem targets_inside {pc : ℕ} {insn : Insn} (hlen : prog.length ≤ 4096) (hpc : pc < prog.length)
    (hvalid : insnValid prog.length insn pc = true) (hfwd : ¬ insn.JumpsBack pc) {t : UInt32}
    (ht : t ∈ insn.targets (UInt32.ofNat pc)) : pc < t.toNat ∧ t.toNat < prog.length := by
  have hof : (UInt32.ofNat pc).toNat = pc := toNat_ofNat_place (hpc.trans_le hlen)
  have hadd : ∀ d : UInt32, pc + 1 + d.toNat < 2 ^ 32 →
      (UInt32.ofNat pc + (1 + d)).toNat = pc + 1 + d.toNat := by
    intro d hd
    rw [UInt32.toNat_add, UInt32.toNat_add, UInt32.toNat_one, hof]
    omega
  unfold Insn.targets at ht
  unfold insnValid at hvalid
  dsimp only at hvalid
  split at ht
  · cases ht
  next hcls =>
    rw [ne_eq, not_not] at hcls
    rw [if_pos hcls] at hvalid
    split at ht
    · next hop =>
      have hlt : pc + 1 + insn.k.toNat < 2 ^ 32 := by
        by_contra hge
        exact hfwd ⟨hcls, hop, Nat.not_lt.mp hge⟩
      rw [if_pos hop, UInt32.add_assoc, hadd _ hlt, decide_eq_true_eq] at hvalid
      obtain rfl := mem_singleton.mp ht
      rw [hadd _ hlt]
      omega
    · next hop =>
      rw [if_neg hop] at hvalid
      split at hvalid
      · rw [decide_eq_true_eq] at hvalid
        have hjt := insn.jt.toNat_lt
        have hjf := insn.jf.toNat_lt
        rcases mem_pair.mp ht with rfl | rfl
        · rw [hadd _ (by rw [UInt8.toNat_toUInt32]; omega), UInt8.toNat_toUInt32]
          omega
        · rw [hadd _ (by rw [UInt8.toNat_toUInt32]; omega), UInt8.toNat_toUInt32]
          omega
      · cases hvalid

/-- An accepted program keeps to its bounds unless one of its long jumps wraps around. -/
theorem bounded_iff_forward (hvalid : bpfValid prog = true) : Bounded prog ↔ Forward prog := by
  obtain ⟨hlen, hinsns⟩ := bpfValid_spec hvalid
  constructor
  · rintro h pc insn hpc ⟨hcls, hop, hwrap⟩
    have hlt : pc < prog.length := (List.getElem?_eq_some_iff.mp hpc).1
    have ht := (h.jumps pc insn hpc (UInt32.ofNat pc + (1 + insn.k)) (by simp [Insn.targets, *])).1
    have hk := insn.k.toNat_lt
    rw [UInt32.toNat_add, UInt32.toNat_add, UInt32.toNat_one, toNat_ofNat_place (hlt.trans_le hlen)]
      at ht
    omega
  · intro hfwd
    have hsorted := fun data fuel => bpfFetches_sorted hlen hfwd data fuel bpfInit
    refine ⟨fun pc insn hpc t ht => ?_, fun data fuel => ⟨(hsorted data fuel).1, fun pc hpc =>
      ((hsorted data fuel).2 pc hpc).2⟩, fun data fuel => ?_, fun data => ?_, ?_⟩
    · exact targets_inside hlen (List.getElem?_eq_some_iff.mp hpc).1 (hinsns pc insn hpc)
        (hfwd pc insn hpc) ht
    · have hnodup := (hsorted data fuel).1.imp fun h => Nat.ne_of_lt h
      have hsub : bpfFetches prog data fuel bpfInit ⊆ range prog.length :=
        fun pc hpc => mem_range.mpr ((hsorted data fuel).2 pc hpc).2
      simpa using (subperm_of_subset hnodup hsub).length_le
    · exact bpfRun_returns data hlen hfwd prog.length bpfInit (Nat.le_add_left _ _)
    · exact fun insn _ k hk hle data st => bpfStep_scratch hk hle data st

theorem bounded_denyCall : bpfValid (denyCall 0) = true ∧ Bounded (denyCall 0) := by
  have hno : ∀ i ∈ denyCall 0,
      ¬ (i.code.toUInt32 &&& 0x07 = 0x05 ∧ i.code.toUInt32 &&& 0xf0 = 0x00) := by decide +kernel
  exact ⟨by decide +kernel, (bounded_iff_forward (by decide +kernel)).mpr
    fun pc insn hpc ⟨hcls, hop, _⟩ => hno insn (mem_of_getElem? hpc) ⟨hcls, hop⟩⟩

def spin : Prog := [⟨0x05, 0, 0, 0xffffffff⟩, ⟨0x06, 0, 0, retAllow⟩]

theorem spin_never_returns :
    bpfValid spin = true ∧ ∀ data fuel, bpfRun spin data fuel bpfInit = none := by
  refine ⟨by decide +kernel, fun data fuel => ?_⟩
  induction fuel with
  | zero => rfl
  | succ fuel ih => exact ih

end Kyronix.Security
