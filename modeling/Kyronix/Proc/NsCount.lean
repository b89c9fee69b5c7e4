import Kyronix.Proc.Ns

/-! Every namespace is counted once for each `nsproxy` field, child namespace and holder that points
to it. References in hand are those that a call has counted and not stored yet. -/
namespace Kyronix.Proc

open Lib.Ledger Lib.Run Function List NsSys

/-- The counts are those of the child namespaces and the references `e` from outside. -/
structure Balanced (h : NsHeap) (e : Multiset ℕ) : Prop where
  counts : Counts Ns.refcnt Ns.dynamic h.cell h.next (h.childRefs + e)
  made : ∀ {id n}, h.cell id = some n → staticNs ≤ id → n.dynamic = true

section

variable {h : NsHeap} {e : Multiset ℕ} {id : ℕ} {n : Ns id}

def NsHeap.set (h : NsHeap) (id : ℕ) (o : Option (Ns id)) : NsHeap :=
  { h with cell := update h.cell id o }

theorem childRefs_set (hid : id < h.next) (o : Option (Ns id)) :
    (h.set id o).childRefs + parentRef (h.cell id) = h.childRefs + parentRef o := by
  have hmem : id ∈ Finset.range h.next := Finset.mem_range.mpr hid
  exact @total_update ℕ _ _ _ _ (fun _ => parentRef) h.cell _ id hmem o

theorem childRefs_set_refcnt (hid : id < h.next) (hn : h.cell id = some n) (c : ℕ) :
    (h.set id (some { n with refcnt := c })).childRefs = h.childRefs := by
  have heq := childRefs_set hid (some { n with refcnt := c })
  rw [hn] at heq
  exact add_right_cancel heq

theorem Balanced.live (hb : Balanced h e) (hid : id ∈ e) : ∃ n, h.cell id = some n :=
  hb.counts.live (Multiset.mem_add.mpr (.inr hid))

theorem Balanced.bound (hb : Balanced h e) (hn : h.cell id = some n) : id < h.next :=
  hb.counts.bound hn

theorem Balanced.made_set (hb : Balanced h e) {o : Option (Ns id)}
    (ho : ∀ n', o = some n' → staticNs ≤ id → n'.dynamic = true) :
    ∀ {id' n'}, (h.set id o).cell id' = some n' → staticNs ≤ id' → n'.dynamic = true := by
  intro id' n' hn'
  rcases update_some_cases hn' with ⟨rfl, heq⟩ | ⟨_, hold⟩
  · exact ho n' heq
  · exact hb.made hold

theorem Balanced.made_refcnt (hb : Balanced h e) (hn : h.cell id = some n) (c : ℕ) :
    ∀ {id' n'}, (h.set id (some { n with refcnt := c })).cell id' = some n' →
      staticNs ≤ id' → n'.dynamic = true := by
  apply hb.made_set
  intro n' hn' hid
  cases hn'
  exact (hb.made hn hid : n.dynamic = true)

theorem nsCommonGet_eq (hn : h.cell id = some n) :
    nsCommonGet h id = h.set id (some { n with refcnt := n.refcnt + 1 }) := by
  simp only [nsCommonGet, hn]
  rfl

theorem Balanced.get (hb : Balanced h e) (hn : h.cell id = some n) :
    Balanced (nsCommonGet h id) (id ::ₘ e) := by
  rw [nsCommonGet_eq hn]
  refine ⟨?_, hb.made_refcnt hn _⟩
  rw [childRefs_set_refcnt (hb.bound hn) hn, Multiset.add_cons]
  exact hb.counts.take hn rfl rfl

theorem nsCommonPut_free (hn : h.cell id = some n) (hc : n.refcnt = 1) (hd : n.dynamic = true) :
    nsCommonPut h id = match n.kind.parent with
      | none => h.set id none
      | some p => nsCommonPut (h.set id none) p := by
  rw [nsCommonPut]
  simp only [hn, hc, hd, and_self, if_true]
  rfl

theorem nsCommonPut_keep (hn : h.cell id = some n) (hc : ¬ (n.refcnt = 1 ∧ n.dynamic = true)) :
    nsCommonPut h id = h.set id (some { n with refcnt := n.refcnt - 1 }) := by
  rw [nsCommonPut]
  simp only [hn, hc, if_false]
  rfl

theorem Balanced.release (hb : Balanced h (id ::ₘ e)) (hn : h.cell id = some n)
    (hc : n.refcnt = 1) (hd : n.dynamic = true) :
    Balanced (h.set id none) (parentRef (some n) + e) := by
  have heq := childRefs_set (hb.bound hn) none
  rw [hn] at heq
  have hcounts := hb.counts
  rw [Multiset.add_cons] at hcounts
  refine ⟨?_, hb.made_set fun _ hn' => absurd hn'.symm (Option.some_ne_none _)⟩
  rw [← add_assoc, heq, parentRef, add_zero]
  exact hcounts.last hn hc hd

theorem Balanced.put (hb : Balanced h (id ::ₘ e)) : Balanced (nsCommonPut h id) e := by
  induction id using Nat.strong_induction_on generalizing h with
  | _ id ih =>
    obtain ⟨n, hn⟩ := hb.live (Multiset.mem_cons_self id e)
    by_cases hc : n.refcnt = 1 ∧ n.dynamic = true
    · have hrel := hb.release hn hc.1 hc.2
      rw [nsCommonPut_free hn hc.1 hc.2]
      unfold parentRef at hrel
      dsimp only at hrel
      cases hp : n.kind.parent with
      | none =>
        rw [hp] at hrel
        exact (zero_add e) ▸ hrel
      | some p =>
        rw [hp] at hrel
        exact ih p p.isLt ((Multiset.singleton_add p.val e) ▸ hrel)
    · have hcounts := hb.counts
      rw [Multiset.add_cons] at hcounts
      rw [nsCommonPut_keep hn hc]
      refine ⟨?_, hb.made_refcnt hn _⟩
      rw [childRefs_set_refcnt (hb.bound hn) hn]
      exact hcounts.drop hn rfl rfl hc

theorem Balanced.create {kind : NsKind h.next}
    (hb : Balanced h (parentRef (some (.fresh kind)) + e)) :
    Balanced (h.create kind) (h.next ::ₘ e) := by
  have hrefs : (h.create kind).childRefs = h.childRefs + parentRef (some (.fresh kind)) := by
    unfold NsHeap.childRefs NsHeap.create
    rw [Finset.range_add_one]
    exact @total_insert ℕ _ _ _ _ (fun _ => parentRef) h.cell _ h.next
      Finset.notMem_range_self (some (Ns.fresh kind))
  constructor
  · rw [hrefs, Multiset.add_cons, add_assoc]
    exact hb.counts.create (Ns.fresh kind) rfl
  · apply hb.made_set
    intro n hn _
    cases hn
    rfl

theorem Balanced.getAll (hb : Balanced h e) (l : List ℕ) (hl : ∀ id ∈ l, id ∈ e) :
    Balanced (l.foldl nsCommonGet h) (↑l + e) := by
  induction l generalizing h e with
  | nil => exact (zero_add e).symm ▸ hb
  | cons id l ih =>
    obtain ⟨n, hn⟩ := hb.live (hl id mem_cons_self)
    have hrest : ∀ j ∈ l, j ∈ id ::ₘ e :=
      fun j hj => Multiset.mem_cons_of_mem (hl j (mem_cons_of_mem _ hj))
    have hgot := ih (hb.get hn) hrest
    rwa [Multiset.add_cons, ← Multiset.cons_add, Multiset.cons_coe] at hgot

theorem Balanced.putAll (l : List ℕ) (hb : Balanced h (↑l + e)) :
    Balanced (l.foldl nsCommonPut h) e := by
  induction l generalizing h with
  | nil => exact (zero_add e) ▸ hb
  | cons id l ih =>
    rw [← Multiset.cons_coe, Multiset.cons_add] at hb
    exact ih hb.put

theorem nsCommonPut_set {x : ℕ} (hx : x < id) (o : Option (Ns id)) :
    nsCommonPut (h.set id o) x = (nsCommonPut h x).set id o := by
  induction x using Nat.strong_induction_on generalizing h with
  | _ x ih =>
    have hcell : (h.set id o).cell x = h.cell x := update_of_ne hx.ne ..
    have hcomm : ∀ o' : Option (Ns x), (h.set id o).set x o' = (h.set x o').set id o := by
      intro o'
      unfold NsHeap.set
      rw [update_comm hx.ne']
    cases hn : h.cell x with
    | none =>
      rw [nsCommonPut, nsCommonPut]
      simp only [hcell, hn]
    | some n =>
      by_cases hc : n.refcnt = 1 ∧ n.dynamic = true
      · rw [nsCommonPut_free (hcell.trans hn) hc.1 hc.2, nsCommonPut_free hn hc.1 hc.2, hcomm]
        cases n.kind.parent with
        | none => rfl
        | some p => exact ih p p.isLt (p.isLt.trans hx)
      · rw [nsCommonPut_keep (hcell.trans hn) hc, nsCommonPut_keep hn hc, hcomm]

theorem cell_nsCommonPut {x : ℕ} (hx : x < id) : (nsCommonPut h x).cell id = h.cell id := by
  have hself : h.set id (h.cell id) = h :=
    congrArg (NsHeap.mk · h.next) (update_eq_self ..)
  have hset := nsCommonPut_set (h := h) hx (h.cell id)
  rw [hself] at hset
  rw [hset]
  exact update_self ..

theorem nsCommonGet_nsCommonPut {x : ℕ} (hx : x < id) (hn : h.cell id = some n) :
    nsCommonGet (nsCommonPut h x) id = nsCommonPut (nsCommonGet h id) x := by
  rw [nsCommonGet_eq ((cell_nsCommonPut hx).trans hn), nsCommonGet_eq hn, nsCommonPut_set hx]

theorem next_nsCommonGet (h : NsHeap) (id : ℕ) : (nsCommonGet h id).next = h.next := by
  unfold nsCommonGet
  split <;> rfl

def Makes (make : NsHeap → ℕ → NsHeap) : Prop :=
  ∀ h e old, Balanced h e → (∃ n, h.cell old = some n) → Balanced (make h old) (h.next ::ₘ e)

theorem older_of_lt {id p : ℕ} (hp : p < id) : older id p = some ⟨p, hp⟩ := dif_pos hp

theorem makes_child (kind : ∀ {id}, Option (Fin id) → NsKind id)
    (hkind : ∀ {id} (p : Option (Fin id)), (kind p).parent = p) :
    Makes fun h old => (nsCommonGet h old).create (kind (older _ old)) := by
  intro h e old hb hold
  obtain ⟨n, hn⟩ := hold
  have hlt : old < (nsCommonGet h old).next := (next_nsCommonGet h old).symm ▸ hb.bound hn
  rw [← next_nsCommonGet h old]
  apply Balanced.create
  show Balanced _ ((kind (older _ old)).parent.elim 0 (fun p => {p.val}) + e)
  rw [hkind, older_of_lt hlt]
  exact hb.get hn

theorem makes_userNsCreate : Makes NsHeap.userNsCreate := makes_child .user fun _ => rfl

theorem makes_pidNsCreate : Makes NsHeap.pidNsCreate := makes_child .pid fun _ => rfl

theorem makes_create (kind : ∀ id, NsKind id) (hkind : ∀ id, (kind id).parent = none) :
    Makes fun h _ => h.create (kind h.next) := by
  intro h e old hb _
  apply Balanced.create
  show Balanced h ((kind h.next).parent.elim 0 (fun p => {p.val}) + e)
  rw [hkind]
  exact (zero_add e).symm ▸ hb

/-- The books between two steps of a call, which holds the proxies in `hand` and the namespaces in
`nsHand`. -/
structure SysBal (s : NsSys) (hand nsHand : Multiset ℕ) : Prop where
  heap : Balanced s.heap (s.fieldRefs + (s.held + nsHand))
  proxies : Counts (fun {_} => NsProxy.refcnt) (fun {_} => NsProxy.dynamic) s.proxy s.nextProxy
    (s.procRefs + hand)
  init : ∃ p, s.proxy 0 = some p ∧ p.dynamic = false

end

variable {s : NsSys} {hand nsHand : Multiset ℕ} {id q : ℕ} {p : NsProxy} {f : NsField}
  {i : Fin procMax}

theorem fieldRefs_update (hq : q < s.nextProxy) (o : Option NsProxy) :
    { s with proxy := update s.proxy q o }.fieldRefs + proxyRefs (s.proxy q) =
      s.fieldRefs + proxyRefs o := by
  have hmem : q ∈ Finset.range s.nextProxy := Finset.mem_range.mpr hq
  exact @total_update ℕ _ _ _ _ (fun _ => proxyRefs) s.proxy _ q hmem o

theorem procRefs_update (i : Fin procMax) (o : Option ℕ) :
    { s with proc := update s.proc i o }.procRefs + procRef (s.proc i) =
      s.procRefs + procRef o :=
  @total_update (Fin procMax) _ _ _ _ (fun _ => procRef) s.proc _ i (Finset.mem_univ i) o

theorem proxyRefs_update (p : NsProxy) (f : NsField) (id : ℕ) :
    proxyRefs (some { p with ns := update p.ns f id }) + {p.ns f} =
      proxyRefs (some p) + {id} :=
  @total_update NsField _ _ _ _ (fun _ id => ({id} : Multiset ℕ)) p.ns _ f (Finset.mem_univ f) id

theorem proxyRefs_some (p : NsProxy) : proxyRefs (some p) = ↑(NsField.all.map p.ns) := rfl

theorem mem_fieldRefs (hq : q < s.nextProxy) (hp : s.proxy q = some p) (f : NsField) :
    p.ns f ∈ s.fieldRefs := by
  apply mem_total (Finset.mem_range.mpr hq)
  rw [hp]
  exact mem_total (Finset.mem_univ f) (Multiset.mem_singleton_self _)

theorem mem_procRefs (hi : s.proc i = some q) : q ∈ s.procRefs := by
  apply mem_total (Finset.mem_univ i)
  rw [hi]
  exact Multiset.mem_singleton_self q

theorem setNs_eq (hp : s.proxy q = some p) (f : NsField) (id : ℕ) :
    s.setNs q f id = { s with
      proxy := update s.proxy q (some { p with ns := update p.ns f id }) } := by
  simp only [setNs, hp]

theorem proc_setNs (s : NsSys) (q : ℕ) (f : NsField) (id : ℕ) : (s.setNs q f id).proc = s.proc := by
  unfold setNs
  split <;> rfl

theorem nsOf_setNs_self (hp : s.proxy q = some p) (f : NsField) (id : ℕ) :
    (s.setNs q f id).nsOf q f = id := by
  simp [setNs_eq hp, nsOf]

theorem nsOf_eq (hp : s.proxy q = some p) (f : NsField) : s.nsOf q f = p.ns f := by
  simp only [nsOf, hp]

theorem init_update (hinit : ∃ p, s.proxy 0 = some p ∧ p.dynamic = false) {o : Option NsProxy}
    (ho : q = 0 → ∀ p, s.proxy 0 = some p → p.dynamic = false →
      ∃ p', o = some p' ∧ p'.dynamic = false) :
    ∃ p, update s.proxy q o 0 = some p ∧ p.dynamic = false := by
  by_cases hq : q = 0
  · subst hq
    obtain ⟨p, hp, hd⟩ := hinit
    rw [update_self]
    exact ho rfl p hp hd
  · rw [update_of_ne fun e => hq e.symm]
    exact hinit

theorem init_update_some (hinit : ∃ p, s.proxy 0 = some p ∧ p.dynamic = false)
    (hp : s.proxy q = some p) {p' : NsProxy} (hd : p'.dynamic = p.dynamic) :
    ∃ p, update s.proxy q (some p') 0 = some p ∧ p.dynamic = false := by
  apply init_update hinit
  intro hq p₀ hp₀ hd₀
  rw [hq, hp₀] at hp
  cases hp
  exact ⟨p', rfl, hd.trans hd₀⟩

namespace SysBal

section

variable (h : SysBal s hand nsHand)
include h

theorem proxy_of_hand (hq : q ∈ hand) : ∃ p, s.proxy q = some p :=
  h.proxies.live (Multiset.mem_add.mpr (.inr hq))

theorem proxy_of_proc (hi : s.proc i = some q) : ∃ p, s.proxy q = some p :=
  h.proxies.live (Multiset.mem_add.mpr (.inl (mem_procRefs hi)))

theorem ns_of_proxy (hp : s.proxy q = some p) (f : NsField) : ∃ n, s.heap.cell (p.ns f) = some n :=
  h.heap.live (Multiset.mem_add.mpr (.inl (mem_fieldRefs (h.proxies.bound hp) hp f)))

theorem nsGet {n : Ns id} (hn : s.heap.cell id = some n) :
    SysBal { s with heap := nsCommonGet s.heap id } hand (id ::ₘ nsHand) := by
  refine ⟨?_, h.proxies, h.init⟩
  have hb := h.heap.get hn
  rwa [← Multiset.add_cons, ← Multiset.add_cons] at hb

end

theorem nsPut (h : SysBal s hand (id ::ₘ nsHand)) :
    SysBal { s with heap := nsCommonPut s.heap id } hand nsHand := by
  refine ⟨?_, h.proxies, h.init⟩
  have hb := h.heap
  rw [Multiset.add_cons, Multiset.add_cons] at hb
  exact hb.put

theorem make (h : SysBal s hand nsHand) {make : NsHeap → ℕ → NsHeap} (hm : Makes make) {old : ℕ}
    (hold : ∃ n, s.heap.cell old = some n) :
    SysBal { s with heap := make s.heap old } hand (s.heap.next ::ₘ nsHand) := by
  refine ⟨?_, h.proxies, h.init⟩
  have hb := hm _ _ _ h.heap hold
  rwa [← Multiset.add_cons, ← Multiset.add_cons] at hb

theorem setPids (h : SysBal s hand nsHand) (t : PidTables) :
    SysBal { s with pids := t } hand nsHand := ⟨h.heap, h.proxies, h.init⟩

section

variable (h : SysBal s hand (id ::ₘ nsHand)) (hp : s.proxy q = some p) (f : NsField)
include h hp

theorem setNs : SysBal (s.setNs q f id) hand (p.ns f ::ₘ nsHand) := by
  have hrefs : (s.setNs q f id).fieldRefs + {p.ns f} = s.fieldRefs + {id} := by
    have hq := fieldRefs_update (h.proxies.bound hp)
      (some { p with ns := update p.ns f id })
    rw [hp, ← setNs_eq hp] at hq
    apply add_right_cancel (b := proxyRefs (some p))
    calc (s.setNs q f id).fieldRefs + {p.ns f} + proxyRefs (some p)
        = (s.setNs q f id).fieldRefs + proxyRefs (some p) + {p.ns f} := add_right_comm ..
      _ = s.fieldRefs +
          (proxyRefs (some { p with ns := update p.ns f id }) + {p.ns f}) := by
        rw [hq, add_assoc]
      _ = s.fieldRefs + {id} + proxyRefs (some p) := by
        rw [proxyRefs_update, ← add_assoc, add_right_comm]
  constructor
  · have hheap : (s.setNs q f id).heap = s.heap := by rw [setNs_eq hp]
    have hheld : (s.setNs q f id).held = s.held := by rw [setNs_eq hp]
    have hsum : (s.setNs q f id).fieldRefs + (s.held + p.ns f ::ₘ nsHand) =
        s.fieldRefs + (s.held + id ::ₘ nsHand) := by
      rw [← Multiset.singleton_add, ← Multiset.singleton_add, add_left_comm s.held,
        add_left_comm s.held, ← add_assoc, hrefs, add_assoc]
    rw [hheap, hheld, hsum]
    exact h.heap
  · rw [setNs_eq hp]
    refine h.proxies.recount hp _ ?_ fun _ _ => rfl
    intro hd
    show p.refcnt = _ ∧ 0 < p.refcnt
    exact ⟨h.proxies.count hp hd, h.proxies.pos hp hd⟩
  · rw [setNs_eq hp]
    exact init_update_some h.init hp rfl

theorem replaceNs : SysBal (s.replaceNs q f id) hand nsHand := by
  have heq : s.replaceNs q f id =
      { s.setNs q f id with heap := nsCommonPut (s.setNs q f id).heap (p.ns f) } := by
    simp only [NsSys.replaceNs, NsSys.setNs, NsSys.nsOf, hp]
  rw [heq]
  exact (h.setNs hp f).nsPut

end

theorem nsproxyGet (h : SysBal s hand nsHand) (hp : s.proxy q = some p) :
    SysBal (s.nsproxyGet q) (q ::ₘ hand) nsHand := by
  have heq : s.nsproxyGet q = { s with
      proxy := update s.proxy q (some { p with refcnt := p.refcnt + 1 }) } := by
    simp only [NsSys.nsproxyGet, hp]
  have hrefs : (s.nsproxyGet q).fieldRefs = s.fieldRefs := by
    have hq := fieldRefs_update (h.proxies.bound hp) (some { p with refcnt := p.refcnt + 1 })
    rw [hp, ← heq] at hq
    exact add_right_cancel hq
  constructor
  · rw [hrefs, heq]
    exact h.heap
  · rw [heq, Multiset.add_cons]
    exact h.proxies.take hp rfl rfl
  · rw [heq]
    exact init_update_some h.init hp rfl

theorem nsproxyPut (o : Option ℕ) (h : SysBal s (procRef o + hand) nsHand) :
    SysBal (s.nsproxyPut o) hand nsHand := by
  cases o with
  | none => exact (zero_add hand) ▸ h
  | some q =>
    have hq : q ::ₘ hand = procRef (some q) + hand := (Multiset.singleton_add q hand).symm
    rw [← hq] at h
    obtain ⟨p, hp⟩ := h.proxy_of_hand (Multiset.mem_cons_self q hand)
    have hproxies := h.proxies
    rw [Multiset.add_cons] at hproxies
    simp only [NsSys.nsproxyPut, hp]
    split
    · next hd =>
      -- a static proxy is not counted
      have hsame := hproxies.recount hp p (fun hd' => nomatch hd.symm.trans hd')
        fun j hne => (Multiset.count_cons_of_ne hne _).symm
      rw [← hp, update_eq_self] at hsame
      exact ⟨h.heap, hsame, h.init⟩
    · next hd =>
      have hd : p.dynamic = true := by simpa using hd
      split
      · next hc =>
        have hrefs := fieldRefs_update (h.proxies.bound hp) none
        rw [hp, proxyRefs, add_zero, proxyRefs_some] at hrefs
        refine ⟨?_, hproxies.last hp hc hd, init_update h.init fun hq p₀ hp₀ hd₀ => ?_⟩
        rotate_left
        · rw [hq, hp₀] at hp
          cases hp
          exact absurd (hd₀.symm.trans hd) Bool.false_ne_true
        have hb := h.heap
        rw [← hrefs, add_right_comm, add_comm] at hb
        have hput := hb.putAll
        rwa [foldl_map] at hput
      · next hc =>
        have hrefs := fieldRefs_update (h.proxies.bound hp)
          (some { p with refcnt := p.refcnt - 1 })
        rw [hp] at hrefs
        refine ⟨?_, hproxies.drop hp rfl rfl fun hc' => hc hc'.1, init_update_some h.init hp rfl⟩
        have hb := h.heap
        rwa [← add_right_cancel hrefs] at hb

theorem nsproxyClone (h : SysBal s hand nsHand) (hp : s.proxy q = some p) :
    SysBal (s.nsproxyClone p) (s.nextProxy ::ₘ hand) nsHand := by
  have hrefs : (s.nsproxyClone p).fieldRefs = s.fieldRefs + ↑(NsField.all.map p.ns) := by
    unfold NsSys.fieldRefs NsSys.nsproxyClone
    rw [Finset.range_add_one]
    exact @total_insert ℕ _ _ _ _ (fun _ => proxyRefs) s.proxy _ s.nextProxy
      Finset.notMem_range_self (some ⟨1, true, p.ns⟩)
  have hmem : ∀ id ∈ NsField.all.map p.ns, id ∈ s.fieldRefs + (s.held + nsHand) := by
    intro id hid
    obtain ⟨f, _, rfl⟩ := mem_map.mp hid
    exact Multiset.mem_add.mpr (.inl (mem_fieldRefs (h.proxies.bound hp) hp f))
  constructor
  · have hb := h.heap.getAll (NsField.all.map p.ns) hmem
    rw [foldl_map, ← add_assoc, add_comm (↑(NsField.all.map p.ns) : Multiset ℕ)] at hb
    rw [hrefs]
    exact hb
  · have hnew := h.proxies.create (⟨1, true, p.ns⟩ : NsProxy) rfl
    rw [← Multiset.add_cons] at hnew
    exact hnew
  · obtain ⟨p₀, hp₀, _⟩ := h.init
    have hpos : 0 < s.nextProxy := h.proxies.bound hp₀
    exact init_update h.init fun hq => absurd hq hpos.ne'

theorem setProc (o : Option ℕ) (h : SysBal s (procRef o + hand) nsHand) (i : Fin procMax) :
    SysBal { s with proc := update s.proc i o } (procRef (s.proc i) + hand) nsHand := by
  refine ⟨h.heap, ?_, h.init⟩
  have hproxies := h.proxies
  rw [← add_assoc, ← procRefs_update i o, add_assoc] at hproxies
  exact hproxies

theorem setProxy (o : Option ℕ) (h : SysBal s (procRef o + hand) nsHand) (i : Fin procMax) :
    SysBal (s.setProxy i o) hand nsHand := (h.setProc o i).nsproxyPut (s.proc i)

theorem renewNs (h : SysBal s hand nsHand) (hq : q ∈ hand) {r : Renewal} (hr : Makes r.make) :
    SysBal (s.renewNs q r) hand nsHand := by
  obtain ⟨p, hp⟩ := h.proxy_of_hand hq
  unfold NsSys.renewNs
  rw [nsOf_eq hp]
  exact (h.make hr (h.ns_of_proxy hp r.field)).replaceNs hp r.field

theorem renewAll (h : SysBal s hand nsHand) (hq : q ∈ hand) (flags : UInt64) {rs : List Renewal}
    (hrs : ∀ r ∈ rs, Makes r.make) (room : ℕ) :
    SysBal (renewAll flags q rs room s).2.2 hand nsHand ∧
      (renewAll flags q rs room s).2.2.proc = s.proc := by
  induction rs generalizing s room with
  | nil => exact ⟨h, rfl⟩
  | cons r rs ih =>
    have hrest := fun r' hr' => hrs r' (mem_cons_of_mem r hr')
    unfold renewAll
    split
    · exact ih h hrest room
    · cases room with
      | zero => exact ⟨h, rfl⟩
      | succ room =>
        have := ih (h.renewNs hq (hrs r mem_cons_self)) hrest room
        exact ⟨this.1, this.2.trans (proc_setNs ..)⟩

end SysBal

theorem makes_renewals : ∀ r ∈ renewals, Makes r.make := by
  intro r hr
  simp only [renewals, mem_cons, not_mem_nil, or_false] at hr
  rcases hr with rfl | rfl | rfl | rfl | rfl | rfl
  · exact makes_userNsCreate
  · exact makes_create (fun _ => .mnt) fun _ => rfl
  · exact makes_create (fun _ => .uts) fun _ => rfl
  · exact makes_create (fun _ => .ipc) fun _ => rfl
  · exact makes_create (fun _ => .net) fun _ => rfl
  · exact makes_create (fun _ => .cgroup) fun _ => rfl

/-- A new pid namespace is not asked for, or it is refused, or memory runs out before it. -/
def PidKept (flags : UInt64) (isThread priv : Bool) (room : ℕ) : Prop :=
  flags &&& cloneNewpid = 0 ∨ flags &&& ~~~ nsCloneAll ≠ 0 ∨ isThread = true ∨
    (flags &&& cloneNewuser = 0 ∧ priv = false) ∨
    room ≤ 1 + (renewals.filter fun r => flags &&& r.flag ≠ 0).length

theorem renewAll_room {flags : UInt64} {rs : List Renewal} {room room' : ℕ} {s' : NsSys}
    (h : renewAll flags q rs room s = (true, room', s')) :
    room = room' + (rs.filter fun r => flags &&& r.flag ≠ 0).length := by
  fun_induction renewAll flags q rs room s with
  | case1 =>
    cases h
    rfl
  | case2 room s r rs hf ih => simpa [hf] using ih h
  | case3 => cases h
  | case4 s r rs hf room ih =>
    have hrest := ih h
    simp only [hf, ne_eq, not_false_eq_true, decide_true, filter_cons_of_pos,
      length_cons] at hrest ⊢
    omega

namespace SysBal

theorem setPair (h : SysBal s hand (id ::ₘ id ::ₘ nsHand)) (hp : s.proxy q = some p)
    {f g : NsField} (hfg : g ≠ f) :
    SysBal (({ s with heap := nsCommonPut (nsCommonPut s.heap (p.ns f)) (p.ns g) }.setNs
      q f id).setNs q g id) hand nsHand := by
  have hset := h.setNs hp f
  rw [Multiset.cons_swap] at hset
  have hp' : (s.setNs q f id).proxy q = some { p with ns := update p.ns f id } := by
    rw [setNs_eq hp]
    exact update_self ..
  have hset' := hset.setNs hp' g
  dsimp only at hset'
  rw [update_of_ne hfg, Multiset.cons_swap] at hset'
  have hput := hset'.nsPut.nsPut
  have heq : ({ s with heap := nsCommonPut (nsCommonPut s.heap (p.ns f)) (p.ns g) }.setNs
      q f id).setNs q g id = { (s.setNs q f id).setNs q g id with
        heap := nsCommonPut (nsCommonPut s.heap (p.ns f)) (p.ns g) } := by
    simp only [NsSys.setNs, hp, update_self]
  have hheap : ((s.setNs q f id).setNs q g id).heap = s.heap := by
    rw [setNs_eq hp', setNs_eq hp]
  rw [heq]
  rw [hheap] at hput
  exact hput

section

variable (h : SysBal s hand nsHand) (hq : q ∈ hand)
include h hq

theorem renewPid : SysBal (s.renewPid q) hand nsHand := by
  obtain ⟨p, hp⟩ := h.proxy_of_hand hq
  have hold := h.ns_of_proxy hp
  have hlt : ∀ f, p.ns f < s.heap.next := by
    intro f
    obtain ⟨n, hn⟩ := hold f
    exact h.heap.bound hn
  have hmade := h.make makes_pidNsCreate (hold .pidNs)
  have hmem : s.heap.next ∈ s.fieldRefs + (s.held + s.heap.next ::ₘ nsHand) :=
    Multiset.mem_add.mpr (.inr (Multiset.mem_add.mpr (.inr (Multiset.mem_cons_self ..))))
  obtain ⟨n, hn⟩ := hmade.heap.live hmem
  -- the second reference to the new namespace could be taken at once
  have hheap : nsCommonGet (nsCommonPut (nsCommonPut (s.heap.pidNsCreate (p.ns .pidNs))
      (p.ns .pidNs)) (p.ns .pidNsForChildren)) s.heap.next =
      nsCommonPut (nsCommonPut (nsCommonGet (s.heap.pidNsCreate (p.ns .pidNs)) s.heap.next)
        (p.ns .pidNs)) (p.ns .pidNsForChildren) := by
    rw [nsCommonGet_nsCommonPut (hlt _) ((cell_nsCommonPut (hlt _)).trans hn),
      nsCommonGet_nsCommonPut (hlt _) hn]
  have hgot := (hmade.nsGet hn).setPids (update s.pids s.heap.next emptyPidNs)
  unfold NsSys.renewPid
  dsimp only
  rw [nsOf_eq hp, nsOf_eq hp, hheap]
  exact hgot.setPair hp (by decide)

theorem nsApplyNewNamespaces (flags : UInt64)
    (room : ℕ) : SysBal (s.nsApplyNewNamespaces q flags room).2 hand nsHand ∧
      (s.nsApplyNewNamespaces q flags room).2.proc = s.proc := by
  have hall := h.renewAll hq flags makes_renewals room
  unfold NsSys.nsApplyNewNamespaces
  generalize NsSys.renewAll flags q renewals room s = r at hall ⊢
  obtain ⟨ok, room', s'⟩ := r
  cases ok with
  | false => exact hall
  | true =>
    dsimp only
    split
    · exact hall
    · split
      · exact hall
      · exact ⟨hall.1.renewPid hq, ((proc_setNs ..).trans (proc_setNs ..)).trans hall.2⟩

theorem retarget (f : NsField)
    (hid : ∃ n, s.heap.cell id = some n) : SysBal (s.retarget q f id) hand nsHand := by
  obtain ⟨p, hp⟩ := h.proxy_of_hand hq
  obtain ⟨n, hn⟩ := hid
  unfold NsSys.retarget
  split
  · exact h
  · exact (h.nsGet hn).replaceNs hp f

theorem cell_retarget (f : NsField)
    (hid : ∃ n, s.heap.cell id = some n) : ∃ n, (s.retarget q f id).heap.cell id = some n := by
  have hr := h.retarget hq f hid
  obtain ⟨p, hp⟩ := h.proxy_of_hand hq
  have hof : (s.retarget q f id).nsOf q f = id := by
    unfold NsSys.retarget
    split
    · next heq => exact heq
    · unfold NsSys.replaceNs
      exact nsOf_setNs_self (by exact hp) f id
  obtain ⟨p', hp'⟩ := hr.proxy_of_hand hq
  have hlive := hr.ns_of_proxy hp' f
  rwa [← nsOf_eq hp', hof] at hlive

end

theorem adopt (h : SysBal s (q ::ₘ hand) nsHand) (child : Fin procMax) :
    SysBal (s.adopt child q).2 hand nsHand :=
  (h.setProxy (some q) child).setPids _

variable (h : SysBal s 0 0)
include h

theorem nsChildPrepare (parent child : Fin procMax) (flags : UInt64) (thread : Bool) (room : ℕ) :
    SysBal (s.nsChildPrepare parent child flags thread room).2 0 0 := by
  unfold NsSys.nsChildPrepare
  split
  · exact h
  split
  · exact h
  next old hold =>
  obtain ⟨p, hp⟩ := h.proxy_of_proc hold
  split
  · exact (h.nsproxyGet hp).adopt child
  rw [hp]
  cases room with
  | zero => exact h
  | succ room =>
    dsimp only
    have hclone := h.nsproxyClone hp
    have hself : s.nextProxy ∈ s.nextProxy ::ₘ (0 : Multiset ℕ) := Multiset.mem_cons_self ..
    -- the state after the new namespaces are made
    have hmade : ∃ rc s', (if flags &&& nsCloneAll = 0 then (0, s.nsproxyClone p)
        else (s.nsproxyClone p).nsApplyNewNamespaces s.nextProxy flags room) = (rc, s') ∧
        SysBal s' (s.nextProxy ::ₘ 0) 0 ∧ s'.proc = s.proc := by
      split
      · exact ⟨_, _, rfl, hclone, rfl⟩
      · exact ⟨_, _, rfl, hclone.nsApplyNewNamespaces hself flags room⟩
    obtain ⟨rc, s', heq, hs', hproc⟩ := hmade
    rw [heq]
    split
    · exact hs'.nsproxyPut (some s.nextProxy)
    split
    · exact hs'.adopt child
    · obtain ⟨p', hp'⟩ := hs'.proxy_of_proc (hproc ▸ hold)
      have htarget := hs'.ns_of_proxy hp' .pidNsForChildren
      rw [nsOf_eq hp']
      have hr := hs'.retarget hself .pidNs htarget
      have hlive := hs'.cell_retarget hself .pidNs htarget
      exact (hr.retarget hself .pidNsForChildren hlive).adopt child

theorem nsUnshare (i : Fin procMax) {flags : UInt64} {isThread priv : Bool}
    {room : ℕ} (hpid : PidKept flags isThread priv room) :
    SysBal (s.nsUnshare i flags isThread priv room).2 0 0 := by
  unfold NsSys.nsUnshare
  split
  · exact h
  next hvalid =>
  split
  · exact h
  split
  · exact h
  next hthread =>
  split
  · exact h
  next hpriv =>
  split
  · exact h
  · exact h
  next p room' hp =>
  have hself : s.nextProxy ∈ s.nextProxy ::ₘ (0 : Multiset ℕ) := Multiset.mem_cons_self ..
  have hall := (h.nsproxyClone hp).renewAll hself flags makes_renewals room'
  dsimp only
  rcases hr : NsSys.renewAll flags s.nextProxy renewals room' (s.nsproxyClone p) with
    ⟨_ | _, room'', s'⟩
  · rw [hr] at hall
    exact hall.1.nsproxyPut (some s.nextProxy)
  · have hroom := renewAll_room hr
    rw [hr] at hall
    dsimp only
    split
    · exact hall.1.setProxy (some s.nextProxy) i
    next hnew =>
    split
    · exact hall.1.nsproxyPut (some s.nextProxy)
    -- nothing refused the call
    next hleft =>
    rcases hpid with hpid | hpid | hpid | hpid | hpid
    · exact absurd hpid hnew
    · exact absurd hpid hvalid
    · refine absurd ⟨hpid, fun hzero => hnew ?_⟩ hthread
      have hmask : cloneNewpid = (cloneNewuser ||| cloneNewpid ||| cloneNewns) &&& cloneNewpid := by
        decide
      rw [hmask, ← UInt64.and_assoc, hzero, UInt64.zero_and]
    · exact absurd hpid hpriv
    · omega

theorem nsSetns (i : Fin procMax) (path : Option NsPath) (nstype : UInt64)
    (found : Option (Fin procMax)) (isThread priv : Bool) :
    SysBal (s.nsSetns i path nstype found isThread priv).2 0 0 := by
  unfold NsSys.nsSetns
  split
  · exact h
  split
  · exact h
  split
  · exact h
  split
  · exact h
  split
  · next src q hsrc hq =>
    split
    · exact h
    · obtain ⟨p, hp⟩ := h.proxy_of_proc hsrc
      obtain ⟨p', hp'⟩ := h.proxy_of_proc hq
      rw [nsOf_eq hp]
      obtain ⟨n, hn⟩ := h.ns_of_proxy hp (NsPath.source _)
      exact (h.nsGet hn).replaceNs hp' _
  · exact h

theorem procRelease (i : Fin procMax) : SysBal (s.procRelease i) 0 0 := by
  unfold NsSys.procRelease
  split
  · exact h
  · exact (h.setPids _).setProxy none i

theorem procAlloc (i : Fin procMax) : SysBal (s.procAlloc i) 0 0 := by
  unfold NsSys.procAlloc
  split
  · exact h
  · next hi =>
    obtain ⟨p, hp, _⟩ := h.init
    have hproc : (s.nsproxyGet 0).proc = s.proc := by simp only [NsSys.nsproxyGet, hp]
    have hset := @setProc _ 0 0 (some 0) (h.nsproxyGet hp) i
    rw [hproc, hi] at hset
    exact hset

theorem nsMntClone (room : ℕ) : SysBal (s.nsMntClone room) 0 0 := by
  unfold NsSys.nsMntClone
  split
  · exact h
  · refine ⟨?_, h.proxies, h.init⟩
    have hb := h.heap
    rw [← zero_add (s.fieldRefs + (s.held + 0))] at hb
    have hnew := @Balanced.create s.heap _ .mnt hb
    rwa [← Multiset.add_cons, ← Multiset.cons_add] at hnew

theorem nsMntSet (i : Fin procMax) (id : ℕ) : SysBal (s.nsMntSet i id) 0 0 := by
  unfold NsSys.nsMntSet
  split
  · next q hq =>
    split
    · next hid =>
      obtain ⟨p, hp⟩ := h.proxy_of_proc hq
      have hmem : id ∈ s.fieldRefs + (s.held + 0) :=
        Multiset.mem_add.mpr (.inr (Multiset.mem_add.mpr (.inl hid)))
      obtain ⟨n, hn⟩ := h.heap.live hmem
      exact (h.nsGet hn).replaceNs hp .mntNs
    · exact h
  · exact h

theorem nsMntPut (id : ℕ) : SysBal (s.nsMntPut id) 0 0 := by
  unfold NsSys.nsMntPut
  split
  · next hid =>
    refine ⟨?_, h.proxies, h.init⟩
    have hb := h.heap
    rw [← Multiset.cons_erase hid, Multiset.cons_add, Multiset.add_cons] at hb
    exact hb.put
  · exact h

end SysBal

inductive NsAct
  | procAlloc (i : Fin procMax)
  | childPrepare (parent child : Fin procMax) (flags : UInt64) (thread : Bool) (room : ℕ)
  | unshare (i : Fin procMax) (flags : UInt64) (isThread priv : Bool) (room : ℕ)
  | setns (i : Fin procMax) (path : Option NsPath) (nstype : UInt64)
      (found : Option (Fin procMax)) (isThread priv : Bool)
  | procRelease (i : Fin procMax)
  | mntClone (room : ℕ)
  | mntSet (i : Fin procMax) (id : ℕ)
  | mntPut (id : ℕ)

def nsStep (s : NsSys) : NsAct → NsSys
  | .procAlloc i => s.procAlloc i
  | .childPrepare parent child flags thread room =>
    (s.nsChildPrepare parent child flags thread room).2
  | .unshare i flags isThread priv room => (s.nsUnshare i flags isThread priv room).2
  | .setns i path nstype found isThread priv => (s.nsSetns i path nstype found isThread priv).2
  | .procRelease i => s.procRelease i
  | .mntClone room => s.nsMntClone room
  | .mntSet i id => s.nsMntSet i id
  | .mntPut id => s.nsMntPut id

-- the statically allocated namespaces, with init_pid_ns as number 0
def initHeap : NsHeap where
  cell id :=
    match id with
    | 0 => some ⟨.pid none, 1, false⟩
    | 1 => some ⟨.user none, 1, false⟩
    | 2 => some ⟨.mnt, 1, false⟩
    | 3 => some ⟨.uts, 1, false⟩
    | 4 => some ⟨.ipc, 1, false⟩
    | 5 => some ⟨.net, 1, false⟩
    | 6 => some ⟨.cgroup, 1, false⟩
    | _ => none
  next := staticNs

def initNs : NsField → ℕ
  | .pidNs => 0
  | .pidNsForChildren => 0
  | .userNs => 1
  | .mntNs => 2
  | .utsNs => 3
  | .ipcNs => 4
  | .netNs => 5
  | .cgroupNs => 6

def nsBoot : NsSys where
  heap := initHeap
  proxy q := if q = 0 then some ⟨1, false, initNs⟩ else none
  nextProxy := 1
  proc _ := none
  pids := startPidTables
  held := 0

def NsSys.nsRefs (s : NsSys) : Multiset ℕ := s.fieldRefs + s.heap.childRefs + s.held

/-- Every dynamic namespace is counted exactly, and those that are freed are the ones that nothing
refers to. -/
structure NsCountsExact (s : NsSys) : Prop where
  count : ∀ id n, s.heap.cell id = some n → n.dynamic = true → n.refcnt = s.nsRefs.count id
  freed : ∀ id, staticNs ≤ id → id < s.heap.next →
    (s.heap.cell id = none ↔ s.nsRefs.count id = 0)

def NsAct.NoPidUnshare : NsAct → Prop
  | .unshare _ flags isThread priv room => PidKept flags isThread priv room
  | _ => True

theorem initHeap_cell {id : ℕ} (hid : id < staticNs) :
    ∃ n, initHeap.cell id = some n ∧ n.dynamic = false ∧ parentRef (some n) = 0 := by
  unfold staticNs at hid
  interval_cases id <;> exact ⟨_, rfl, rfl, rfl⟩

theorem initHeap_bound {id : ℕ} {n : Ns id} (hn : initHeap.cell id = some n) : id < staticNs := by
  by_contra hid
  obtain ⟨k, rfl⟩ := Nat.exists_eq_add_of_le' (Nat.not_lt.mp hid)
  cases hn

theorem sysBal_boot : SysBal nsBoot 0 0 := by
  have hstatic : ∀ {id} {n : Ns id}, initHeap.cell id = some n → n.dynamic ≠ true := by
    intro id n hn hd
    obtain ⟨n', hn', hd', _⟩ := initHeap_cell (initHeap_bound hn)
    rw [hn] at hn'
    cases hn'
    exact absurd (hd'.symm.trans hd) Bool.false_ne_true
  have hproxy : ∀ {q p}, nsBoot.proxy q = some p → q = 0 ∧ p.dynamic = false := by
    intro q p hp
    by_cases hq : q = 0
    · subst hq
      cases hp
      exact ⟨rfl, rfl⟩
    · replace hp : (if q = 0 then some ⟨1, false, initNs⟩ else none) = some p := hp
      rw [if_neg hq] at hp
      cases hp
  have hchild : initHeap.childRefs = 0 := by decide
  have hfields : ∀ id ∈ nsBoot.fieldRefs, id < staticNs := by decide
  have hprocs : nsBoot.procRefs = 0 := by
    unfold procRefs total
    exact Finset.sum_eq_zero fun _ _ => rfl
  constructor
  · refine ⟨⟨fun hn hd => absurd hd (hstatic hn), ?_, initHeap_bound,
      fun hn hd => absurd hd (hstatic hn)⟩, ?_⟩
    · intro id hid
      have hid : id ∈ initHeap.childRefs + (nsBoot.fieldRefs + (0 + 0)) := hid
      rw [hchild, zero_add, add_zero, add_zero] at hid
      obtain ⟨n, hn, _⟩ := initHeap_cell (hfields id hid)
      exact ⟨n, hn⟩
    · intro id n hn hid
      exact absurd (initHeap_bound hn) (Nat.not_lt.mpr hid)
  · rw [hprocs]
    refine ⟨?_, fun hq => absurd hq (Multiset.notMem_zero _), ?_, ?_⟩
    · exact fun hp hd => absurd ((hproxy hp).2.symm.trans hd) Bool.false_ne_true
    · exact fun hp => (hproxy hp).1.symm ▸ Nat.one_pos
    · exact fun hp hd => absurd ((hproxy hp).2.symm.trans hd) Bool.false_ne_true
  · exact ⟨_, rfl, rfl⟩

theorem SysBal.step (h : SysBal s 0 0) (a : NsAct) (ha : a.NoPidUnshare) :
    SysBal (nsStep s a) 0 0 := by
  cases a with
  | procAlloc i => exact h.procAlloc i
  | childPrepare parent child flags thread room =>
    exact h.nsChildPrepare parent child flags thread room
  | unshare i flags isThread priv room => exact h.nsUnshare i ha
  | setns i path nstype found isThread priv => exact h.nsSetns i path nstype found isThread priv
  | procRelease i => exact h.procRelease i
  | mntClone room => exact h.nsMntClone room
  | mntSet i id => exact h.nsMntSet i id
  | mntPut id => exact h.nsMntPut id

theorem SysBal.exact (h : SysBal s 0 0) : NsCountsExact s := by
  have hrefs : s.nsRefs = s.heap.childRefs + (s.fieldRefs + (s.held + 0)) := by
    rw [nsRefs, add_zero, ← add_assoc, add_comm s.heap.childRefs]
  refine ⟨fun id n hn hd => ?_, fun id hid hlt => ?_⟩
  · rw [hrefs]
    exact h.heap.counts.count hn hd
  · rw [hrefs]
    constructor
    · intro hnone
      by_contra hne
      obtain ⟨n, hn⟩ := h.heap.counts.live (Multiset.count_pos.mp (Nat.pos_of_ne_zero hne))
      exact absurd (hnone.symm.trans hn) (Option.some_ne_none n).symm
    · intro hzero
      cases hn : s.heap.cell id with
      | none => rfl
      | some n =>
        have hd := h.heap.made hn hid
        have hpos := h.heap.counts.pos hn hd
        rw [h.heap.counts.count hn hd, hzero] at hpos
        exact absurd hpos (Nat.lt_irrefl 0)

/-- Without an `unshare` of the pid namespace the counts are exact, and namespaces are freed when
nothing refers to them any more, and not before. -/
theorem ns_refcounts_exact (acts : List NsAct)
    (h : Along nsStep (fun _ a => a.NoPidUnshare) nsBoot acts) :
    Always nsStep NsCountsExact nsBoot acts := by
  have hinv : Always nsStep (fun s => SysBal s 0 0) nsBoot acts :=
    h.always sysBal_boot fun s a hs ha => hs.step a ha
  exact fun pre hp => (hinv pre hp).exact

-- a process forks into a new user and a new pid namespace, and its child exits
theorem ns_refcounts_exact_fork :
    Always nsStep NsCountsExact nsBoot
      [.procAlloc 0, .procAlloc 1, .childPrepare 0 1 (cloneNewuser ||| cloneNewpid) false 3,
        .procRelease 1] := by
  apply ns_refcounts_exact
  intro pre a hp
  have ha := hp.subset (mem_append_right pre (mem_singleton_self a))
  simp only [mem_cons, not_mem_nil, or_false] at ha
  rcases ha with rfl | rfl | rfl | rfl <;> trivial

/-- After one `unshare(CLONE_NEWPID)` the new namespace is counted twice, and only one field
points to it. -/
theorem unshare_pid_leaks :
    let s := exec nsStep nsBoot [.procAlloc 0, .unshare 0 cloneNewpid false true 2]
    s.heap.cell 7 = some ⟨.pid (some 0), 2, true⟩ ∧ s.nsRefs.count 7 = 1 := by
  decide +kernel

end Kyronix.Proc
