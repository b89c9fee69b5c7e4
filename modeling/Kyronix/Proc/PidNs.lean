import Kyronix.Lib.Run

/-! Pid namespaces (`ns.c`): the tables between global and local pids of every namespace of a tree,
and the registration that fills them from the root down. -/
namespace Kyronix.Proc

open Lib.Run Function

def nsPidMax : ℕ := 64

/-- The tables of one namespace; the entry of pid `p` is at index `p - 1`, and 0 is no pid. -/
structure PidTable where
  nextPid : ℕ
  localOfGlobal : ℕ → ℕ
  globalOfLocal : ℕ → ℕ

open PidTable

/-- Namespace 0 is `init_pid_ns`; the others are numbered in the order of their creation. -/
structure PidTree where
  parent : (n : ℕ) → Fin (n + 1)

abbrev PidTables := ℕ → PidTable

def PidOk (p : ℕ) : Prop := 1 ≤ p ∧ p ≤ nsPidMax

instance (p : ℕ) : Decidable (PidOk p) := inferInstanceAs (Decidable (_ ∧ _))

-- ns_init
def initPidNs : PidTable := ⟨nsPidMax + 1, fun i => i + 1, fun i => i + 1⟩

-- the tables of a namespace made by pid_ns_create
def emptyPidNs : PidTable := ⟨1, fun _ => 0, fun _ => 0⟩

def PidTable.assign (s : PidTable) (global locl : ℕ) : PidTable :=
  { s with
    localOfGlobal := update s.localOfGlobal (global - 1) locl
    globalOfLocal := update s.globalOfLocal (locl - 1) global }

def PidTable.clear (s : PidTable) (global : ℕ) : PidTable :=
  let locl := s.localOfGlobal (global - 1)
  if locl = 0 then s else
    { s with
      localOfGlobal := update s.localOfGlobal (global - 1) 0
      globalOfLocal := update s.globalOfLocal (locl - 1) 0 }

/-- When the counter has run out it takes the pid back from the parent, and from no one above. -/
def pidNsRegisterAt (T : PidTree) (t : PidTables) (n global : ℕ) : Bool × PidTables :=
  let s := t (n + 1)
  if s.localOfGlobal (global - 1) ≠ 0 then (true, t)
  else if s.nextPid = 0 ∨ s.nextPid > nsPidMax then
    let t := update t (n + 1) { s with nextPid := nsPidMax + 1 }
    (false, update t (T.parent n) ((t (T.parent n)).clear global))
  else
    (true, update t (n + 1) { s.assign global s.nextPid with nextPid := s.nextPid + 1 })

def pidNsRegister (T : PidTree) (t : PidTables) : (ns : ℕ) → (global : ℕ) → Bool × PidTables
  | 0, global => (decide (PidOk global), t)
  | n + 1, global =>
    if PidOk global then
      match pidNsRegister T t (T.parent n) global with
      | (false, t) => (false, t)
      | (true, t) => pidNsRegisterAt T t n global
    else (false, t)
termination_by ns => ns

def pidNsUnregister (T : PidTree) (t : PidTables) : (ns : ℕ) → (global : ℕ) → PidTables
  | 0, _ => t
  | n + 1, global =>
    if PidOk global ∧ (t (n + 1)).localOfGlobal (global - 1) ≠ 0 then
      pidNsUnregister T (update t (n + 1) ((t (n + 1)).clear global)) (T.parent n) global
    else t
termination_by ns => ns

-- the pid of process `global` as it is seen from a namespace, and back
def nsProcPidIn (t : PidTables) (ns global : ℕ) : ℕ :=
  if PidOk global then
    if ns = 0 then global else (t ns).localOfGlobal (global - 1)
  else 0

def nsPidToGlobal (t : PidTables) (ns locl : ℕ) : ℕ :=
  if PidOk locl then
    if ns = 0 then locl else (t ns).globalOfLocal (locl - 1)
  else 0

structure PidTable.Inverse (s : PidTable) : Prop where
  iff : ∀ {g l}, PidOk g → PidOk l → (s.localOfGlobal (g - 1) = l ↔ s.globalOfLocal (l - 1) = g)
  local_le : ∀ {g}, PidOk g → s.localOfGlobal (g - 1) ≤ nsPidMax
  global_le : ∀ {l}, PidOk l → s.globalOfLocal (l - 1) ≤ nsPidMax

variable {s : PidTable} {g l p q : ℕ}

theorem sub_one_inj (hp : PidOk p) (hq : PidOk q) (h : p - 1 = q - 1) : p = q := by
  have := hp.1
  have := hq.1
  omega

theorem PidOk.of_ne_zero (h0 : p ≠ 0) (h : p ≤ nsPidMax) : PidOk p :=
  ⟨Nat.one_le_iff_ne_zero.mpr h0, h⟩

theorem PidOk.ne_zero (h : PidOk p) : p ≠ 0 := Nat.one_le_iff_ne_zero.mp h.1

theorem PidTable.Inverse.globalOfLocal_eq_zero (h : s.Inverse) (hl : PidOk l)
    (hfresh : ∀ g, PidOk g → s.localOfGlobal (g - 1) ≠ l) : s.globalOfLocal (l - 1) = 0 := by
  by_contra h0
  have hg : PidOk (s.globalOfLocal (l - 1)) := .of_ne_zero h0 (h.global_le hl)
  exact hfresh _ hg ((h.iff hg hl).mpr rfl)

theorem PidTable.Inverse.store (h : s.Inverse) (hg : PidOk g) (hl : PidOk l) {x y : ℕ}
    (hx : x ≤ nsPidMax) (hy : y ≤ nsPidMax) (hown : x = l ↔ y = g)
    (hrow : ∀ l', PidOk l' → l' ≠ l → (x = l' ↔ s.localOfGlobal (g - 1) = l'))
    (hcol : ∀ g', PidOk g' → g' ≠ g → (y = g' ↔ s.globalOfLocal (l - 1) = g')) :
    PidTable.Inverse { s with
      localOfGlobal := update s.localOfGlobal (g - 1) x
      globalOfLocal := update s.globalOfLocal (l - 1) y } where
  iff := by
    intro g' l' hg' hl'
    dsimp only
    by_cases hgg : g' = g <;> by_cases hll : l' = l
    · rw [hgg, hll, update_self, update_self]
      exact hown
    · rw [hgg, update_self, update_of_ne fun e => hll (sub_one_inj hl' hl e),
        hrow l' hl' hll]
      exact h.iff hg hl'
    · rw [hll, update_self, update_of_ne fun e => hgg (sub_one_inj hg' hg e),
        hcol g' hg' hgg]
      exact h.iff hg' hl
    · rw [update_of_ne fun e => hgg (sub_one_inj hg' hg e),
        update_of_ne fun e => hll (sub_one_inj hl' hl e)]
      exact h.iff hg' hl'
  local_le := by
    intro g' hg'
    dsimp only
    rw [update_apply]
    split
    · exact hx
    · exact h.local_le hg'
  global_le := by
    intro l' hl'
    dsimp only
    rw [update_apply]
    split
    · exact hy
    · exact h.global_le hl'

theorem PidTable.Inverse.assign (h : s.Inverse) (hg : PidOk g) (hl : PidOk l)
    (hg0 : s.localOfGlobal (g - 1) = 0) (hl0 : s.globalOfLocal (l - 1) = 0) :
    (s.assign g l).Inverse := by
  refine h.store hg hl hl.2 hg.2 (iff_of_true rfl rfl) (fun l' hl' hne => ?_) fun g' hg' hne => ?_
  · rw [hg0]
    exact iff_of_false hne.symm hl'.ne_zero.symm
  · rw [hl0]
    exact iff_of_false hne.symm hg'.ne_zero.symm

theorem PidTable.clear_of_ne_zero (h : s.localOfGlobal (g - 1) ≠ 0) :
    s.clear g = { s with
      localOfGlobal := update s.localOfGlobal (g - 1) 0
      globalOfLocal := update s.globalOfLocal (s.localOfGlobal (g - 1) - 1) 0 } :=
  if_neg h

theorem PidTable.Inverse.clear (h : s.Inverse) (hg : PidOk g)
    (hg0 : s.localOfGlobal (g - 1) ≠ 0) : (s.clear g).Inverse := by
  have hl : PidOk (s.localOfGlobal (g - 1)) := .of_ne_zero hg0 (h.local_le hg)
  have hlg : s.globalOfLocal (s.localOfGlobal (g - 1) - 1) = g := (h.iff hg hl).mp rfl
  rw [clear_of_ne_zero hg0]
  refine h.store hg hl (Nat.zero_le _) (Nat.zero_le _) ?_ (fun l' hl' hne => ?_)
    fun g' hg' hne => ?_
  · exact iff_of_false hg0.symm hg.ne_zero.symm
  · exact iff_of_false hl'.ne_zero.symm hne.symm
  · rw [hlg]
    exact iff_of_false hg'.ne_zero.symm hne.symm

inductive PidTree.Above (T : PidTree) (m : ℕ) : ℕ → Prop
  | self : T.Above m m
  | step {n : ℕ} (h : T.Above m (T.parent n)) : T.Above m (n + 1)

variable {T : PidTree} {t : PidTables} {m n ns : ℕ}

theorem PidTree.Above.le (h : T.Above m ns) : m ≤ ns := by
  induction h with
  | self => exact le_rfl
  | @step n _ ih => exact ih.trans (Nat.le_succ_of_le (Nat.le_of_lt_succ (T.parent n).isLt))

theorem parent_ne (T : PidTree) (n : ℕ) : (T.parent n : ℕ) ≠ n + 1 := (T.parent n).isLt.ne

def Registered (t : PidTables) (m g : ℕ) : Prop := (t m).localOfGlobal (g - 1) ≠ 0

instance (t : PidTables) (m g : ℕ) : Decidable (Registered t m g) :=
  inferInstanceAs (Decidable (_ ≠ _))

structure TablesInv (T : PidTree) (t : PidTables) : Prop where
  inverse : ∀ m, (t m).Inverse
  fresh : ∀ {n g}, PidOk g → (t (n + 1)).localOfGlobal (g - 1) < (t (n + 1)).nextPid
  up : ∀ {n g}, PidOk g → Registered t (n + 1) g → Registered t (T.parent n) g
  init : ∀ {g}, PidOk g → Registered t 0 g

def HasRoom (t : PidTables) (m g : ℕ) : Prop := Registered t m g ∨ (t m).nextPid ≤ nsPidMax

theorem registered_update_of_ne {s : PidTable} (h : m ≠ n) :
    Registered (update t n s) m g ↔ Registered t m g := by
  rw [Registered, update_of_ne h]
  rfl

theorem TablesInv.update (h : TablesInv T t) {s : PidTable} (hinv : s.Inverse)
    (hfresh : ∀ g, PidOk g → s.localOfGlobal (g - 1) < s.nextPid)
    (hup : ∀ g, PidOk g → s.localOfGlobal (g - 1) ≠ 0 → Registered t (T.parent n) g)
    (hdown : ∀ n' g, PidOk g → T.parent n' = n + 1 → Registered t (n' + 1) g →
      s.localOfGlobal (g - 1) ≠ 0) :
    TablesInv T (update t (n + 1) s) where
  inverse := by
    intro m
    by_cases hm : m = n + 1
    · subst hm
      rwa [update_self]
    · rw [update_of_ne hm]
      exact h.inverse m
  fresh := by
    intro n' g hg
    by_cases hm : n' + 1 = n + 1
    · rw [hm, update_self]
      exact hfresh g hg
    · rw [update_of_ne hm]
      exact h.fresh hg
  up := by
    intro n' g hg hr
    by_cases hm : n' + 1 = n + 1
    · obtain rfl := Nat.succ.inj hm
      rw [Registered, update_self] at hr
      exact (registered_update_of_ne (parent_ne T n')).mpr (hup g hg hr)
    · have hr := (registered_update_of_ne hm).mp hr
      by_cases hpar : (T.parent n' : ℕ) = n + 1
      · rw [hpar, Registered, update_self]
        exact hdown n' g hg hpar hr
      · exact (registered_update_of_ne hpar).mpr (h.up hg hr)
  init hg := (registered_update_of_ne (Nat.succ_ne_zero n).symm).mpr (h.init hg)

theorem localOfGlobal_assign (hp : PidOk p) (hg : PidOk g) :
    (s.assign g l).localOfGlobal (p - 1) = if p = g then l else s.localOfGlobal (p - 1) := by
  show update s.localOfGlobal (g - 1) l (p - 1) = _
  by_cases h : p = g
  · rw [h, update_self, if_pos rfl]
  · rw [update_of_ne fun e => h (sub_one_inj hp hg e), if_neg h]

theorem localOfGlobal_clear (hp : PidOk p) (hg : PidOk g) :
    (s.clear g).localOfGlobal (p - 1) = if p = g then 0 else s.localOfGlobal (p - 1) := by
  by_cases h0 : s.localOfGlobal (g - 1) = 0
  · rw [clear, if_pos h0]
    split
    · next h => rw [h, h0]
    · rfl
  · rw [clear_of_ne_zero h0]
    exact localOfGlobal_assign (l := 0) hp hg

structure RegisterSpec (T : PidTree) (t t' : PidTables) (ns g : ℕ) : Prop where
  inv : TablesInv T t'
  registered : Registered t' ns g
  others : ∀ m, ns < m → t' m = t m

theorem TablesInv.registerAt (h : TablesInv T t) (hg : PidOk g) (hroom : HasRoom t (n + 1) g)
    (hp : Registered t (T.parent n) g) :
    (pidNsRegisterAt T t n g).1 = true ∧
      RegisterSpec T t (pidNsRegisterAt T t n g).2 (n + 1) g := by
  unfold pidNsRegisterAt
  dsimp only
  split
  · next hreg => exact ⟨rfl, h, hreg, fun _ _ => rfl⟩
  · next hreg =>
    have hg0 : (t (n + 1)).localOfGlobal (g - 1) = 0 := not_not.mp hreg
    have hpos : (t (n + 1)).nextPid ≠ 0 := Nat.ne_of_gt ((Nat.zero_le _).trans_lt (h.fresh hg))
    have hle : (t (n + 1)).nextPid ≤ nsPidMax := hroom.resolve_left hreg
    have hl : PidOk (t (n + 1)).nextPid := .of_ne_zero hpos hle
    have hl0 := (h.inverse (n + 1)).globalOfLocal_eq_zero hl fun g' hg' => (h.fresh hg').ne
    have hinv := (h.inverse (n + 1)).assign hg hl hg0 hl0
    have hold : ∀ {g'}, PidOk g' → Registered t (n + 1) g' → g' ≠ g :=
      fun _ hr e => hreg (e ▸ hr)
    have hlog := fun {p} (hp : PidOk p) =>
      localOfGlobal_assign (s := t (n + 1)) (l := (t (n + 1)).nextPid) hp hg
    rw [if_neg (by rintro (h0 | h1); exacts [hpos h0, Nat.not_lt.mpr hle h1])]
    refine ⟨rfl, h.update ⟨hinv.iff, hinv.local_le, hinv.global_le⟩ ?_ ?_ ?_, ?_, ?_⟩
    · intro g' hg'
      show ((t (n + 1)).assign g _).localOfGlobal (g' - 1) < (t (n + 1)).nextPid + 1
      rw [hlog hg']
      split
      · exact Nat.lt_succ_self _
      · exact Nat.lt_succ_of_lt (h.fresh hg')
    · intro g' hg' hr
      replace hr : ((t (n + 1)).assign g _).localOfGlobal (g' - 1) ≠ 0 := hr
      rw [hlog hg'] at hr
      split at hr
      · next e => exact e ▸ hp
      · exact h.up hg' hr
    · intro n' g' hg' hpar hr
      have hup : Registered t (n + 1) g' := hpar ▸ h.up hg' hr
      show ((t (n + 1)).assign g _).localOfGlobal (g' - 1) ≠ 0
      rw [hlog hg', if_neg (hold hg' hup)]
      exact hup
    · show (Function.update t (n + 1) _ (n + 1)).localOfGlobal (g - 1) ≠ 0
      rw [Function.update_self]
      show ((t (n + 1)).assign g _).localOfGlobal (g - 1) ≠ 0
      rw [hlog hg, if_pos rfl]
      exact hpos
    · intro m hm
      exact Function.update_of_ne (Nat.ne_of_gt hm) ..

theorem pidNsRegister_of_not (hg : ¬ PidOk g) : pidNsRegister T t ns g = (false, t) := by
  cases ns with
  | zero => simp [pidNsRegister, hg]
  | succ n => rw [pidNsRegister, if_neg hg]

theorem TablesInv.register (h : TablesInv T t) (hg : PidOk g)
    (hroom : ∀ m, T.Above m ns → m ≠ 0 → HasRoom t m g) :
    (pidNsRegister T t ns g).1 = true ∧ RegisterSpec T t (pidNsRegister T t ns g).2 ns g := by
  induction ns using Nat.strong_induction_on with
  | _ ns ih =>
    cases ns with
    | zero =>
      rw [pidNsRegister, decide_eq_true hg]
      exact ⟨rfl, h, h.init hg, fun _ _ => rfl⟩
    | succ n =>
      obtain ⟨hok, hspec⟩ := ih (T.parent n) (T.parent n).isLt fun m hm => hroom m (.step hm)
      rw [pidNsRegister, if_pos hg]
      generalize pidNsRegister T t (T.parent n) g = r at hok hspec
      obtain ⟨ok, t'⟩ := r
      obtain rfl : ok = true := hok
      replace hspec : RegisterSpec T t t' (T.parent n) g := hspec
      have hlt : (T.parent n : ℕ) < n + 1 := (T.parent n).isLt
      have hroom' : HasRoom t' (n + 1) g := by
        have hr := hroom (n + 1) .self (Nat.succ_ne_zero n)
        rw [HasRoom, Registered] at hr ⊢
        rwa [hspec.others (n + 1) hlt]
      obtain ⟨hok', hspec'⟩ := hspec.inv.registerAt hg hroom' hspec.registered
      refine ⟨hok', hspec'.inv, hspec'.registered, fun m hm => ?_⟩
      rw [hspec'.others m hm, hspec.others m (hlt.trans hm)]

theorem TablesInv.clear (h : TablesInv T t) (hg : PidOk g) (hreg : Registered t (n + 1) g)
    (hlow : ∀ m, n + 1 < m → ¬ Registered t m g) :
    TablesInv T (Function.update t (n + 1) ((t (n + 1)).clear g)) := by
  have hlog := fun {p} (hp : PidOk p) => localOfGlobal_clear (s := t (n + 1)) hp hg
  have hnext : ((t (n + 1)).clear g).nextPid = (t (n + 1)).nextPid := by
    rw [clear_of_ne_zero hreg]
  apply h.update ((h.inverse (n + 1)).clear hg hreg)
  · intro g' hg'
    have hf := h.fresh (n := n) hg'
    rw [hlog hg', hnext]
    split
    · exact (Nat.zero_le _).trans_lt hf
    · exact hf
  · intro g' hg' hr
    rw [hlog hg'] at hr
    split at hr
    · exact absurd rfl hr
    · exact h.up hg' hr
  · intro n' g' hg' hpar hr
    -- a child of the cleared namespace cannot have the pid that is cleared
    have hgg : g' ≠ g := by
      intro e
      have hlt : n + 1 < n' + 1 := hpar ▸ (T.parent n').isLt
      exact hlow _ hlt (e ▸ hr)
    have hup : Registered t (n + 1) g' := hpar ▸ h.up hg' hr
    rw [hlog hg', if_neg hgg]
    exact hup

theorem not_registered_clear (hreg : Registered t (n + 1) g) :
    ¬ Registered (update t (n + 1) ((t (n + 1)).clear g)) (n + 1) g := by
  rw [Registered, update_self, (t (n + 1)).clear_of_ne_zero hreg]
  exact not_not.mpr (update_self ..)

theorem TablesInv.unregister (h : TablesInv T t)
    (hown : ∀ m, m ≠ 0 → Registered t m g → T.Above m ns) :
    TablesInv T (pidNsUnregister T t ns g) := by
  induction ns using Nat.strong_induction_on generalizing t with
  | _ ns ih =>
    cases ns with
    | zero =>
      rw [pidNsUnregister]
      exact h
    | succ n =>
      rw [pidNsUnregister]
      split
      · next hreg =>
        obtain ⟨hg, hreg⟩ := hreg
        have hlow : ∀ m, n + 1 < m → ¬ Registered t m g :=
          fun m hm hr => Nat.not_le.mpr hm (hown m (by omega) hr).le
        apply ih (T.parent n) (T.parent n).isLt (h.clear hg hreg hlow)
        intro m hm hr
        have hne : m ≠ n + 1 := by
          intro e
          exact not_registered_clear hreg (e ▸ hr)
        cases hown m hm ((registered_update_of_ne hne).mp hr) with
        | self => exact absurd rfl hne
        | step hab => exact hab
      · exact h

inductive PidAct
  | register (ns global : ℕ)
  | unregister (ns global : ℕ)

def pidStep (T : PidTree) (t : PidTables) : PidAct → PidTables
  | .register ns global => (pidNsRegister T t ns global).2
  | .unregister ns global => pidNsUnregister T t ns global

def startPidTables : PidTables
  | 0 => initPidNs
  | _ + 1 => emptyPidNs

/-- In every namespace the tables are inverse to each other, and a pid registered in a namespace
is registered in all those above it. -/
structure PidTablesOk (T : PidTree) (t : PidTables) : Prop where
  inverse : ∀ m, (t m).Inverse
  ancestors : ∀ m ns g, PidOk g → T.Above m ns → Registered t ns g → Registered t m g

def registeredCount (t : PidTables) (m : ℕ) : ℕ :=
  ((Finset.Icc 1 nsPidMax).filter (Registered t m)).card

/-- A failing registration leaves the ancestors alone, and one succeeds when no namespace on the way
to the root is full. -/
def RegisterOk (T : PidTree) (t : PidTables) : PidAct → Prop
  | .register ns g =>
    ((pidNsRegister T t ns g).1 = false →
      ∀ m, T.Above m ns → m ≠ ns → (pidNsRegister T t ns g).2 m = t m) ∧
    (PidOk g → (∀ m, T.Above m ns → m ≠ 0 → registeredCount t m < nsPidMax) →
      (pidNsRegister T t ns g).1 = true)
  | .unregister _ _ => True

/-- A registration finds no counter run out on its way, and a process leaves from the namespace
it was registered with. -/
def PidAct.Allowed (T : PidTree) (t : PidTables) : PidAct → Prop
  | .register ns g => PidOk g → ∀ m, T.Above m ns → m ≠ 0 → HasRoom t m g
  | .unregister ns g =>
    ns ≠ 0 → Registered t ns g → ∀ m, m ≠ 0 → Registered t m g → T.Above m ns

theorem tablesInv_start (T : PidTree) : TablesInv T startPidTables := by
  have hinit : initPidNs.Inverse := by
    refine ⟨fun {g l} hg hl => ?_, fun {g} hg => ?_, fun {l} hl => ?_⟩
    · show g - 1 + 1 = l ↔ l - 1 + 1 = g
      rw [Nat.sub_add_cancel hg.1, Nat.sub_add_cancel hl.1]
      exact eq_comm
    · exact (Nat.sub_add_cancel hg.1).trans_le hg.2
    · exact (Nat.sub_add_cancel hl.1).trans_le hl.2
  have hempty : emptyPidNs.Inverse := by
    refine ⟨fun {g l} hg hl => ?_, fun _ => Nat.zero_le _, fun _ => Nat.zero_le _⟩
    exact ⟨fun e => absurd e.symm hl.ne_zero, fun e => absurd e.symm hg.ne_zero⟩
  refine ⟨fun m => ?_, fun _ => Nat.one_pos, fun _ hr => absurd rfl hr, fun _ => Nat.succ_ne_zero _⟩
  cases m with
  | zero => exact hinit
  | succ n => exact hempty

theorem TablesInv.step (h : TablesInv T t) (a : PidAct) (ha : a.Allowed T t) :
    TablesInv T (pidStep T t a) := by
  cases a with
  | register ns g =>
    by_cases hg : PidOk g
    · exact (h.register hg (ha hg)).2.inv
    · rw [pidStep, pidNsRegister_of_not hg]
      exact h
  | unregister ns g =>
    cases ns with
    | zero =>
      rw [pidStep, pidNsUnregister]
      exact h
    | succ n =>
      by_cases hr : Registered t (n + 1) g
      · exact h.unregister (ha (Nat.succ_ne_zero n) hr)
      · rw [pidStep, pidNsUnregister, if_neg fun hc => hr hc.2]
        exact h

theorem TablesInv.ok (h : TablesInv T t) : PidTablesOk T t := by
  refine ⟨h.inverse, fun m ns g hg hab => ?_⟩
  induction hab with
  | self => exact id
  | step _ ih => exact fun hr => ih (h.up hg hr)

theorem TablesInv.registerOk (h : TablesInv T t) (a : PidAct) (ha : a.Allowed T t) :
    RegisterOk T t a := by
  cases a with
  | unregister ns g => trivial
  | register ns g =>
    by_cases hg : PidOk g
    · have hok := (h.register hg (ha hg)).1
      exact ⟨fun hf => absurd (hf.symm.trans hok) Bool.false_ne_true, fun _ _ => hok⟩
    · rw [RegisterOk, pidNsRegister_of_not hg]
      exact ⟨fun _ _ _ _ => rfl, fun hg' => absurd hg' hg⟩

theorem PidTablesOk.nsPidToGlobal_nsProcPidIn (h : PidTablesOk T t) (hg : PidOk g)
    (hr : Registered t m g) : nsPidToGlobal t m (nsProcPidIn t m g) = g := by
  have hl : PidOk ((t m).localOfGlobal (g - 1)) := .of_ne_zero hr ((h.inverse m).local_le hg)
  unfold nsPidToGlobal nsProcPidIn
  by_cases hm : m = 0
  · simp only [hg, hm, if_true]
  · simp only [hg, hm, hl, if_true, if_false]
    exact ((h.inverse m).iff hg hl).mp rfl

/-- If no counter runs out and every process leaves from the namespace it was registered with, the
tables stay consistent and every registration keeps its promise. -/
theorem pid_tables_consistent (T : PidTree) (acts : List PidAct)
    (h : Along (pidStep T) (PidAct.Allowed T) startPidTables acts) :
    Always (pidStep T) (PidTablesOk T) startPidTables acts ∧
      Along (pidStep T) (RegisterOk T) startPidTables acts := by
  have hinv : Always (pidStep T) (TablesInv T) startPidTables acts :=
    h.always (tablesInv_start T) fun t a ht ha => ht.step a ha
  refine ⟨fun pre hp => (hinv pre hp).ok, fun pre a hp => ?_⟩
  exact (hinv pre ((List.prefix_append pre [a]).trans hp)).registerOk a (h pre a hp)

/-- In such a history `ns_pid_to_global` leads from the pid that a process has in a namespace back
to the process. -/
theorem pids_round_trip (T : PidTree) (acts : List PidAct)
    (h : Along (pidStep T) (PidAct.Allowed T) startPidTables acts) :
    Always (pidStep T) (fun t => ∀ m g, PidOk g → Registered t m g →
      nsPidToGlobal t m (nsProcPidIn t m g) = g) startPidTables acts := by
  intro pre hpre m g hg hr
  have hinv := h.always (tablesInv_start T) (fun t a ht ha => ht.step a ha) pre hpre
  exact hinv.ok.nsPidToGlobal_nsProcPidIn hg hr

def flatPidTree : PidTree := ⟨fun n => ⟨0, n.succ_pos⟩⟩

theorem hasRoom_start (m g : ℕ) (hm : m ≠ 0) : HasRoom startPidTables m g := by
  obtain ⟨n, rfl⟩ := Nat.exists_eq_succ_of_ne_zero hm
  right
  show 1 ≤ nsPidMax
  decide

-- a fork in namespace 1 and its exit
theorem pid_tables_consistent_fork_exit :
    Along (pidStep flatPidTree) (PidAct.Allowed flatPidTree) startPidTables
        ([] ++ [.register 1 5] ++ [.unregister 1 5]) ∧
      Always (pidStep flatPidTree) (PidTablesOk flatPidTree) startPidTables
        ([] ++ [.register 1 5] ++ [.unregister 1 5]) := by
  have hspec : RegisterSpec flatPidTree startPidTables
      (pidNsRegister flatPidTree startPidTables 1 5).2 1 5 :=
    ((tablesInv_start flatPidTree).register (by decide) fun m _ hm => hasRoom_start m 5 hm).2
  have hrun : Along (pidStep flatPidTree) (PidAct.Allowed flatPidTree) startPidTables
      ([] ++ [.register 1 5] ++ [.unregister 1 5]) := by
    refine along_concat.mpr ⟨along_concat.mpr ⟨along_nil, ?_⟩, ?_⟩
    · exact fun _ m _ hm => hasRoom_start m 5 hm
    · intro _ _ m hm0 hr
      by_cases hm : m = 1
      · rw [hm]
        exact .self
      · obtain ⟨n, rfl⟩ := Nat.exists_eq_succ_of_ne_zero hm0
        have hsame := hspec.others (n + 1) (by omega)
        exact absurd (congrArg (fun s : PidTable => s.localOfGlobal 4) hsame) hr
  exact ⟨hrun, (pid_tables_consistent _ _ hrun).1⟩

theorem pids_round_trip_fork :
    let t := exec (pidStep flatPidTree) startPidTables ([] ++ [.register 1 5])
    nsProcPidIn t 1 5 = 1 ∧ nsPidToGlobal t 1 (nsProcPidIn t 1 5) = 5 := by
  refine ⟨by decide +kernel, pids_round_trip _ _ (along_concat.mpr ⟨along_nil, ?_⟩) _
    List.prefix_rfl 1 5 (by decide) (by decide +kernel)⟩
  exact fun _ m _ hm => hasRoom_start m 5 hm

def usedUp (k : ℕ) : PidTables := update startPidTables 1 ⟨k, fun _ => 0, fun _ => 0⟩

theorem usedUp_one : usedUp 1 = startPidTables := update_eq_self 1 startPidTables

theorem forkExit_usedUp {k : ℕ} (hk : PidOk k) :
    exec (pidStep flatPidTree) (usedUp k) [.register 1 1, .unregister 1 1] = usedUp (k + 1) := by
  have hk' : ¬ (k = 0 ∨ k > nsPidMax) := by
    rintro (h0 | h1)
    exacts [hk.ne_zero h0, Nat.not_lt.mpr hk.2 h1]
  have hone : PidOk 1 := by decide
  have hreg : (pidNsRegister flatPidTree (usedUp k) 1 1).2 = update (usedUp k) 1
      { emptyPidNs.assign 1 k with nextPid := k + 1 } := by
    simp [pidNsRegister, pidNsRegisterAt, flatPidTree, usedUp, hk', hone, assign,
      emptyPidNs]
  show pidNsUnregister flatPidTree (pidNsRegister flatPidTree (usedUp k) 1 1).2 1 1 = _
  rw [hreg]
  simp [pidNsUnregister, flatPidTree, usedUp, hone, hk.ne_zero, assign, emptyPidNs,
    clear]

def forkExits (n : ℕ) : List PidAct :=
  (List.replicate n [PidAct.register 1 1, PidAct.unregister 1 1]).flatten

theorem exec_forkExits (n : ℕ) (hn : n ≤ nsPidMax) :
    exec (pidStep flatPidTree) startPidTables (forkExits n) = usedUp (n + 1) := by
  induction n with
  | zero => exact usedUp_one.symm
  | succ n ih =>
    rw [forkExits, List.replicate_succ', List.flatten_concat, exec_append]
    rw [forkExits] at ih
    rw [ih (Nat.le_of_succ_le hn)]
    exact forkExit_usedUp ⟨Nat.succ_pos n, hn⟩

/-- After 64 processes nothing is registered in namespace 1, yet the next registration fails, and
strikes the pid from the initial namespace's tables. -/
theorem exited_pids_exhaust :
    let t := exec (pidStep flatPidTree) startPidTables (forkExits 64)
    let r := pidNsRegister flatPidTree t 1 1
    registeredCount t 1 = 0 ∧ r.1 = false ∧
      (t 0).localOfGlobal 0 = 1 ∧ (r.2 0).localOfGlobal 0 = 0 := by
  intro t r
  have ht : t = usedUp 65 := exec_forkExits 64 (by decide)
  have hr : r = pidNsRegister flatPidTree (usedUp 65) 1 1 := by rw [← ht]
  rw [hr, ht]
  refine ⟨Finset.card_eq_zero.mpr (Finset.filter_eq_empty_iff.mpr fun g _ h => h rfl), ?_⟩
  decide +kernel

end Kyronix.Proc
