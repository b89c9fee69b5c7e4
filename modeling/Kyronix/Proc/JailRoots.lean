import Kyronix.Fs.Clamp
import Kyronix.Proc.Jail

/-! Roots of nested jails. `jail_create` compares the new root with that of the parent as texts, so
a sibling whose name goes on from the parent's passes for one below it. -/
namespace Kyronix.Proc

open Lib.Run List Jail Option
open Function (update update_self update_of_ne iterate_succ_apply)
open Fs (Text cut pathCanon components pathOf tailOf Canon Slashy CompOk)

def Inside (path dir : Text) : Prop := components dir <+: components path

def Beside (ps qs : List Text) : Prop :=
  ∃ dir x t rest, ps = dir ++ [x] ∧ t ≠ [] ∧ qs = dir ++ (x ++ t) :: rest

def joinedRoot (proot croot : Text) : Text := pathCanon 512 (cut 512 (proot ++ '/' :: croot))

def StaysIn (proot croot : Text) : Prop :=
  ¬ Beside (components proot) (components (joinedRoot proot croot))

section

variable {x y : Text} {ps qs : List Text} {a b : Text}

theorem comp_prefix (hx : '/' ∉ x) (hb : Slashy b) (h : x <+: y ++ b) : x <+: y := by
  induction x generalizing y with
  | nil => exact nil_prefix
  | cons c x ih =>
    have hx' : '/' ∉ x := fun hm => hx (mem_cons_of_mem c hm)
    cases y with
    | nil =>
      obtain ⟨r, hr⟩ := h
      have hc : c = '/' := hb c (by rw [← nil_append b, ← hr]; rfl)
      exact absurd (hc ▸ mem_cons_self) hx
    | cons d y =>
      obtain ⟨rfl, htail⟩ := cons_prefix_cons.mp h
      exact cons_prefix_cons.mpr ⟨rfl, ih hx' htail⟩

theorem Beside.cons (h : Beside ps qs) (x : Text) : Beside (x :: ps) (x :: qs) := by
  obtain ⟨dir, z, t, rest, rfl, ht, rfl⟩ := h
  exact ⟨x :: dir, z, t, rest, rfl, ht, rfl⟩

theorem tailOf_prefix_cases (hp : Canon ps) (hq : Canon qs) (h : tailOf ps <+: tailOf qs) :
    ps <+: qs ∨ Beside ps qs := by
  induction ps generalizing qs with
  | nil => exact .inl nil_prefix
  | cons x xs ih =>
    have hx := hp x mem_cons_self
    have hxs : Canon xs := fun z hz => hp z (mem_cons_of_mem x hz)
    cases qs with
    | nil => exact absurd (prefix_nil.mp h) (cons_ne_nil _ _)
    | cons y ys =>
      have hy := hq y mem_cons_self
      have hys : Canon ys := fun z hz => hq z (mem_cons_of_mem y hz)
      have hbody : x ++ tailOf xs <+: y ++ tailOf ys := (cons_prefix_cons.mp h).2
      by_cases hnil : xs = []
      · -- the last component may go on in the other path
        subst hnil
        rw [Fs.tailOf_nil, append_nil] at hbody
        obtain ⟨t, rfl⟩ := comp_prefix hx.2.1 (Fs.slashy_tailOf ys) hbody
        by_cases ht : t = []
        · subst ht
          rw [append_nil]
          exact .inl ⟨ys, rfl⟩
        · exact .inr ⟨[], x, t, ys, rfl, ht, rfl⟩
      · obtain ⟨r, hr⟩ := hbody
        have hslash : Slashy (tailOf xs ++ r) := by
          obtain ⟨z, zs, rfl⟩ := exists_cons_of_ne_nil hnil
          intro ch hch
          exact (Option.some.inj hch).symm
        rw [append_assoc] at hr
        obtain ⟨rfl, htail⟩ := Fs.comp_split hx.2.1 hy.2.1 hslash (Fs.slashy_tailOf ys) hr
        rcases ih hxs hys ⟨r, htail⟩ with hpre | hbeside
        · exact .inl (cons_prefix_cons.mpr ⟨rfl, hpre⟩)
        · exact .inr (hbeside.cons x)

theorem Beside.tailOf_prefix (h : Beside ps qs) : tailOf ps <+: tailOf qs := by
  obtain ⟨dir, x, t, rest, rfl, -, rfl⟩ := h
  rw [Fs.tailOf_append, Fs.tailOf_append]
  refine (prefix_append_right_inj _).mpr ⟨t ++ tailOf rest, ?_⟩
  simp [Fs.tailOf_cons, Fs.tailOf_nil]

theorem Beside.not_prefix (h : Beside ps qs) : ¬ ps <+: qs := by
  obtain ⟨dir, x, t, rest, rfl, ht, rfl⟩ := h
  intro hpre
  have hx := (cons_prefix_cons.mp ((prefix_append_right_inj dir).mp hpre)).1
  exact ht (append_cancel_left (hx.symm.trans (append_nil x).symm))

theorem pathOf_prefix_iff (hp : Canon ps) (hq : Canon qs) :
    pathOf ps <+: pathOf qs ↔ ps <+: qs ∨ Beside ps qs := by
  by_cases hpn : ps = []
  · subst hpn
    refine iff_of_true ?_ (.inl nil_prefix)
    obtain ⟨r, hr⟩ := List.head?_eq_some_iff.mp (Fs.head?_pathOf qs)
    exact ⟨r, by rw [hr]; rfl⟩
  by_cases hqn : qs = []
  · subst hqn
    refine iff_of_false (fun h => ?_) ?_
    · obtain ⟨x, xs, rfl⟩ := exists_cons_of_ne_nil hpn
      rw [Fs.pathOf_of_ne_nil hpn, Fs.tailOf_cons, Fs.pathOf_nil] at h
      have hnil := prefix_nil.mp (cons_prefix_cons.mp h).2
      exact (hp x mem_cons_self).1 (append_eq_nil_iff.mp hnil).1
    · rintro (h | ⟨dir, x, t, rest, -, -, h⟩)
      · exact hpn (prefix_nil.mp h)
      · exact absurd h.symm (by simp)
  rw [Fs.pathOf_of_ne_nil hpn, Fs.pathOf_of_ne_nil hqn]
  constructor
  · exact tailOf_prefix_cases hp hq
  · rintro (⟨rest, rfl⟩ | h)
    · exact ⟨tailOf rest, (Fs.tailOf_append ps rest).symm⟩
    · exact h.tailOf_prefix

def RootOk (root : Text) : Prop := root = [] ∨ ∃ ps, Canon ps ∧ root = pathOf ps ∧ root.length < 256

theorem jailRoot_ok {proot croot : Text} (hp : RootOk proot)
    (hlen : (jailRoot proot croot).length < 256) : RootOk (jailRoot proot croot) := by
  unfold jailRoot at hlen ⊢
  dsimp only at hlen ⊢
  split
  · next h =>
    rcases hp with hp | ⟨ps, hps, heq, hshort⟩
    · exact absurd hp h.1
    · refine .inr ⟨ps, hps, ?_, ?_⟩
      · rw [cut, take_of_length_le (by omega), heq]
      · rw [cut, take_of_length_le (by omega)]
        exact hshort
  · next h =>
    rw [if_neg h] at hlen
    obtain ⟨qs, hqs, heq⟩ := Fs.pathCanon_spec 512 (cut 512 (proot ++ '/' :: croot))
    exact .inr ⟨qs, hqs, heq, hlen⟩

theorem jailRoot_within_iff {proot croot : Text} (hp : RootOk proot) :
    Inside (jailRoot proot croot) proot ↔ StaysIn proot croot := by
  obtain ⟨qs, hqs, hq⟩ := Fs.pathCanon_spec 512 (cut 512 (proot ++ '/' :: croot))
  have hjoined : components (joinedRoot proot croot) = qs := by
    rw [joinedRoot, hq, Fs.components_pathOf hqs]
  unfold Inside StaysIn jailRoot
  rw [hjoined, hq]
  rcases hp with rfl | ⟨ps, hps, rfl, hlen⟩
  · have hnil : components [] = [] := by decide +kernel
    rw [hnil]
    refine iff_of_true nil_prefix ?_
    rintro ⟨dir, x, t, rest, h, -⟩
    exact absurd h.symm (by simp)
  · rw [Fs.components_pathOf hps]
    by_cases hpre : pathOf ps <+: pathOf qs
    · have htrue := isPrefixOf_iff_prefix.mpr hpre
      rw [if_neg fun h => Bool.noConfusion (htrue.symm.trans h.2), Fs.components_pathOf hqs]
      constructor
      · exact fun h hb => hb.not_prefix h
      · exact fun h => ((pathOf_prefix_iff hps hqs).mp hpre).resolve_right h
    · have hne : pathOf ps ≠ [] := ne_nil_of_length_pos (Fs.length_pathOf_pos ps)
      have hfalse : (pathOf ps).isPrefixOf (pathOf qs) = false := by
        rw [← Bool.not_eq_true, isPrefixOf_iff_prefix]
        exact hpre
      rw [if_pos ⟨hne, hfalse⟩, cut, take_of_length_le (by omega), Fs.components_pathOf hps]
      refine iff_of_true prefix_rfl fun hb => hpre ?_
      exact (pathOf_prefix_iff hps hqs).mpr (.inr hb)

end

def rootNow (s : JailSys) (n : ℕ) : Option Text :=
  (((List.range' 1 jailMax).filterMap (jailFind s)).find? fun j => j.serial = n).map root

structure RootLog where
  sys : JailSys
  rootOf : ℕ → Text

open RootLog

def rootStep (r : RootLog) (act : JailAct) : RootLog :=
  let t := jailStep r.sys act
  ⟨t, fun n => (rootNow t n).getD (r.rootOf n)⟩

def NestedRoots (r : RootLog) : Prop :=
  ∀ n m, 0 < n → n < r.sys.nextSerial → InChain r.sys m n → Inside (r.rootOf n) (r.rootOf m)

def creation (s : JailSys) : JailAct → Option (ℕ × Text)
  | .call i (.create euid initial readable cfg) =>
    (liveProc s i).bind fun p =>
      if jailHostPriv s p euid initial = false ∨ readable = false then none
      else some (p.jailId, cut 256 cfg.root)
  | .call i .execve =>
    (liveProc s i).bind fun p =>
      if s.auto = true ∧ p.exempt = false then some (p.jailId, []) else none
  | _ => none

def parentRoot (s : JailSys) (parent : ℕ) : Text := ((jailFind s parent).map root).getD []

def NestOk (r : RootLog) (act : JailAct) : Prop :=
  ∀ parent croot, creation r.sys act = some (parent, croot) →
    r.sys.nextSerial < (jailStep r.sys act).nextSerial → StaysIn (parentRoot r.sys parent) croot

section

variable {s t u : JailSys} {k m n parent : ℕ} {j : Jail} {croot : Text} {r : RootLog}

def Jail.tag (j : Jail) : ℕ × Text := (j.serial, j.root)

structure FewerRoots (s t : JailSys) : Prop where
  tag : ∀ m j, jailFind t m = some j → (jailFind s m).map tag = some j.tag
  creator : t.creator = s.creator
  next : t.nextSerial = s.nextSerial

theorem SameTree.tag (h : SameTree s t) (m : ℕ) :
    (jailFind t m).map tag = (jailFind s m).map tag := by
  have hcore := congrArg (Option.map Prod.snd) (h.core m)
  rw [Option.map_map, Option.map_map] at hcore
  exact hcore

theorem SameTree.fewer (h : SameTree s t) : FewerRoots s t := by
  refine ⟨fun m j hj => ?_, h.creator, h.next⟩
  rw [← h.tag m, hj]
  rfl

theorem sameTree_enter (i : Fin Fs.procMax) (p : JailProc) : SameTree s (jailEnter s i p k) := by
  unfold jailEnter
  split
  · exact .refl s
  · exact (sameTree_setProc sameTree_unref i _).trans sameTree_ref

theorem fewerRoots_setJail (hj : jailFind s k = some j) (st : JailState) :
    FewerRoots s (setJail s k { j with state := st }) := by
  refine ⟨fun m x hx => ?_, rfl, rfl⟩
  by_cases hm : m = k
  · subst hm
    obtain ⟨hne, hmax, -, -⟩ := jailFind_some hj
    rw [jailFind_setJail_self hne hmax] at hx
    split at hx
    · cases hx
    · cases hx
      rw [hj]
      rfl
  · rw [jailFind_setJail_ne hm] at hx
    rw [hx]
    rfl

theorem fewerRoots_remove (id : ℕ) (p : JailProc) (euid : UInt32) (initial : Bool) :
    FewerRoots s (jailRemove s id p euid initial).2 := by
  unfold jailRemove
  split
  · exact (SameTree.refl s).fewer
  next j hj =>
    split
    · exact (SameTree.refl s).fewer
    · exact fewerRoots_setJail hj _

theorem fewerRoots_reap : FewerRoots s (jailReap s k) := by
  unfold jailReap modJail
  cases hk : jailFind s k with
  | none => exact (SameTree.refl s).fewer
  | some j =>
    dsimp only
    split
    · exact fewerRoots_setJail hk .unused
    · exact fewerRoots_setJail hk j.state

structure Made (s t : JailSys) (parent : ℕ) (croot : Text) (k : ℕ) : Prop where
  short : (jailRoot (parentRoot s parent) croot).length < 256
  tag : ∀ m, (jailFind t m).map tag =
    if m = k then some (s.nextSerial, jailRoot (parentRoot s parent) croot)
    else (jailFind s m).map tag
  creator : t.creator = update s.creator s.nextSerial
    (((jailFind s parent).map serial).getD 0)
  next : t.nextSerial = s.nextSerial + 1

theorem Made.same (h : Made s t parent croot k) (h' : SameTree t u) : Made s u parent croot k :=
  ⟨h.short, fun m => (h'.tag m).trans (h.tag m), h'.creator.trans h.creator,
    h'.next.trans h.next⟩

theorem jailCreate_made (s : JailSys) (parent : ℕ) (cfg : JailConf) :
    (∃ e, e < 0 ∧ jailCreate s parent cfg = (e, s)) ∨
      ∃ k : ℕ, 0 < k ∧ (jailCreate s parent cfg).1 = k ∧
        Made s (jailCreate s parent cfg).2 parent cfg.root k := by
  rcases jailCreate_cases s parent cfg with
    hfail | ⟨k, j, hk, hmax, -, hst, -, -, hs, hroot, hlen, -, heq⟩
  · exact .inl hfail
  · rw [heq]
    refine .inr ⟨k, Nat.pos_of_ne_zero hk, rfl, hroot ▸ hlen, fun m => ?_, rfl, rfl⟩
    by_cases hm : m = k
    · subst hm
      rw [if_pos rfl, parentRoot, ← hs, ← hroot]
      exact congrArg (Option.map tag)
        ((jailFind_setJail_self hk hmax).trans (if_neg (by simp [hst])))
    · rw [if_neg hm]
      exact congrArg (Option.map tag) (jailFind_setJail_ne hm)

theorem sysJailCreate_roots (i : Fin Fs.procMax) (p : JailProc) (euid : UInt32)
    (initial readable : Bool) (cfg : JailConf) :
    FewerRoots s (sysJailCreate s i p euid initial readable cfg).2 ∨
      ¬ (jailHostPriv s p euid initial = false ∨ readable = false) ∧
        ∃ k, Made s (sysJailCreate s i p euid initial readable cfg).2 p.jailId
          (cut 256 cfg.root) k := by
  have hsame : FewerRoots s s := (SameTree.refl s).fewer
  unfold sysJailCreate
  split
  · exact .inl hsame
  next hpriv =>
    split
    · exact .inl hsame
    next hread =>
      rcases jailCreate_made s p.jailId { cfg with root := cut 256 cfg.root } with
        ⟨e, he, heq⟩ | ⟨k, hk, hrc, hmade⟩
      · rw [heq, if_pos he]
        exact .inl hsame
      · have hneg : ¬ (jailCreate s p.jailId { cfg with root := cut 256 cfg.root }).1 < 0 := by
          rw [hrc]
          omega
        refine .inr ⟨not_or.mpr ⟨hpriv, hread⟩, k, ?_⟩
        rw [if_neg hneg]
        split
        · exact hmade.same (sameTree_enter i p)
        · exact hmade

theorem execIsolate_roots (i : Fin Fs.procMax) (p : JailProc) :
    FewerRoots s (execIsolate s i p) ∨
      (s.auto = true ∧ p.exempt = false) ∧ ∃ k, Made s (execIsolate s i p) p.jailId [] k := by
  unfold execIsolate
  split
  · next hauto =>
    rcases jailCreate_made s p.jailId ⟨[], jailfAll, 0, false⟩ with
      ⟨e, he, heq⟩ | ⟨k, hk, hrc, hmade⟩
    · rw [heq, if_neg (by omega)]
      exact .inl (SameTree.refl s).fewer
    · refine .inr ⟨hauto, k, ?_⟩
      rw [if_pos (by omega)]
      exact hmade.same (sameTree_enter i p)
  · exact .inl (SameTree.refl s).fewer

theorem jailStep_roots (s : JailSys) (act : JailAct) :
    FewerRoots s (jailStep s act) ∨ ∃ parent croot k,
      creation s act = some (parent, croot) ∧ Made s (jailStep s act) parent croot k := by
  have hsame : FewerRoots s s := (SameTree.refl s).fewer
  cases act with
  | reaped i =>
    unfold jailStep
    dsimp only
    split
    · exact .inl hsame
    · next p hp =>
      obtain ⟨htag, hc, hn⟩ := fewerRoots_reap (s := setProc s i none) (k := p.jailId)
      exact .inl ⟨htag, hc, hn⟩
  | call i call =>
    unfold jailStep
    dsimp only
    split
    · exact .inl hsame
    next p hp =>
      cases call with
      | create euid initial readable cfg =>
        rcases sysJailCreate_roots i p euid initial readable cfg with h | ⟨hok, k, hmade⟩
        · exact .inl h
        · refine .inr ⟨p.jailId, cut 256 cfg.root, k, ?_, hmade⟩
          exact (congrArg (Option.bind · _) hp).trans (if_neg hok)
      | attach id =>
        left
        show FewerRoots s (sysJailAttach s i p id).2
        unfold sysJailAttach
        split
        · exact hsame
        split
        · exact hsame
        split
        · exact hsame
        · exact (sameTree_enter i p).fewer
      | remove euid initial id => exact .inl (fewerRoots_remove id p euid initial)
      | setAuto euid initial on =>
        left
        show FewerRoots s (if jailHostPriv s p euid initial = false then (-eperm, s)
          else (0, { s with auto := on })).2
        split
        · exact hsame
        · exact ⟨hsame.tag, rfl, rfl⟩
      | execve =>
        rcases execIsolate_roots i p with h | ⟨hok, k, hmade⟩
        · exact .inl h
        · refine .inr ⟨p.jailId, [], k, ?_, hmade⟩
          exact (congrArg (Option.bind · _) hp).trans (if_pos hok)
      | fork child =>
        left
        show FewerRoots s (jailFork s p child)
        unfold jailFork
        split
        · exact hsame
        · exact ((sameTree_setProc (.refl s) child _).trans sameTree_ref).fewer
      | exit =>
        exact .inl (sameTree_setProc sameTree_unref i _).fewer

structure Logged (r : RootLog) : Prop where
  bound : ∀ {k j}, jailFind r.sys k = some j → 0 < j.serial ∧ j.serial < r.sys.nextSerial
  down : ∀ n, 0 < n → r.sys.creator n < n
  host : r.sys.creator 0 = 0
  root : ∀ {k j}, jailFind r.sys k = some j → r.rootOf j.serial = j.root ∧ RootOk j.root
  hostRoot : r.rootOf 0 = []

theorem rootNow_some {x : Text} (h : rootNow s n = some x) :
    ∃ k j, jailFind s k = some j ∧ j.serial = n ∧ j.root = x := by
  obtain ⟨j, hj, hx⟩ := map_eq_some_iff.mp h
  have hserial := List.find?_some hj
  obtain ⟨k, -, hk⟩ := mem_filterMap.mp (mem_of_find?_eq_some hj)
  exact ⟨k, j, hk, by simpa using hserial, hx⟩

theorem rootNow_of_find (h : jailFind s k = some j) : ∃ x, rootNow s j.serial = some x := by
  obtain ⟨hne, hmax, -, -⟩ := jailFind_some h
  have hmem : j ∈ (List.range' 1 jailMax).filterMap (jailFind s) :=
    mem_filterMap.mpr ⟨k, mem_range'_1.mpr (by omega), h⟩
  have hsome := List.find?_isSome (p := fun x : Jail => decide (x.serial = j.serial)) |>.mpr
    ⟨j, hmem, by simp⟩
  obtain ⟨x, hx⟩ := isSome_iff_exists.mp hsome
  exact ⟨x.root, by rw [rootNow, hx]; rfl⟩

theorem tag_some {o : Option Jail} {x : ℕ × Text} (h : o.map tag = some x) :
    ∃ j, o = some j ∧ j.serial = x.1 ∧ j.root = x.2 := by
  obtain ⟨j, hj, rfl⟩ := map_eq_some_iff.mp h
  exact ⟨j, hj, rfl, rfl⟩

variable {act : JailAct}

theorem rootStep_fewer (h : Logged r) (hs : FewerRoots r.sys (jailStep r.sys act)) :
    (rootStep r act).rootOf = r.rootOf := by
  funext n
  show (rootNow (jailStep r.sys act) n).getD (r.rootOf n) = r.rootOf n
  cases hnow : rootNow (jailStep r.sys act) n with
  | none => rfl
  | some x =>
    obtain ⟨k, j, hk, rfl, rfl⟩ := rootNow_some hnow
    obtain ⟨j', hj', hserial, hroot⟩ := tag_some (hs.tag k j hk)
    have hlog := (h.root hj').1
    rw [hserial, hroot] at hlog
    exact hlog.symm

theorem Logged.fewer (h : Logged r)
    (hs : FewerRoots r.sys (jailStep r.sys act)) : Logged (rootStep r act) := by
  have hlog := rootStep_fewer h hs
  have hold : ∀ {k j}, jailFind (rootStep r act).sys k = some j →
      ∃ j', jailFind r.sys k = some j' ∧ j'.serial = j.serial ∧ j'.root = j.root :=
    fun hj => tag_some (hs.tag _ _ hj)
  constructor
  case bound =>
    intro k j hj
    obtain ⟨j', hj', hserial, -⟩ := hold hj
    have hb := h.bound hj'
    rw [hserial] at hb
    exact ⟨hb.1, hb.2.trans_eq hs.next.symm⟩
  case down => exact fun n hn => (congrFun hs.creator n).trans_lt (h.down n hn)
  case host => exact (congrFun hs.creator 0).trans h.host
  case root =>
    intro k j hj
    obtain ⟨j', hj', hserial, hroot⟩ := hold hj
    rw [hlog, ← hserial, ← hroot]
    exact h.root hj'
  case hostRoot => rw [hlog, h.hostRoot]

def parentSerial (s : JailSys) (parent : ℕ) : ℕ := ((jailFind s parent).map serial).getD 0

theorem Logged.ofParent (h : Logged r) (hfirst : 0 < r.sys.nextSerial) (parent : ℕ) :
    parentSerial r.sys parent < r.sys.nextSerial ∧
      r.rootOf (parentSerial r.sys parent) = parentRoot r.sys parent ∧
      RootOk (parentRoot r.sys parent) := by
  unfold parentSerial parentRoot
  cases hj : jailFind r.sys parent with
  | none => exact ⟨hfirst, h.hostRoot, .inl rfl⟩
  | some j => exact ⟨(h.bound hj).2, h.root hj⟩

theorem rootStep_made (h : Logged r) (hm : Made r.sys (jailStep r.sys act) parent croot k) :
    (rootStep r act).rootOf = update r.rootOf r.sys.nextSerial
      (jailRoot (parentRoot r.sys parent) croot) := by
  funext n
  show (rootNow (jailStep r.sys act) n).getD (r.rootOf n) = _
  have hnew := tag_some ((hm.tag k).trans (if_pos rfl))
  by_cases hn : n = r.sys.nextSerial
  · subst hn
    rw [update_self]
    obtain ⟨j, hj, hserial, -⟩ := hnew
    obtain ⟨x, hx⟩ := rootNow_of_find hj
    rw [hserial] at hx
    rw [hx, getD_some]
    obtain ⟨k', j', hj', hserial', rfl⟩ := rootNow_some hx
    have htag := hm.tag k'
    rw [hj', map_some] at htag
    by_cases hk : k' = k
    · rw [if_pos hk] at htag
      exact congrArg Prod.snd (Option.some.inj htag)
    · -- no older jail has the new number
      rw [if_neg hk] at htag
      obtain ⟨y, hy, hys, -⟩ := tag_some htag.symm
      have hlt := (h.bound hy).2
      rw [hys] at hlt
      exact absurd hserial' hlt.ne
  · rw [update_of_ne hn]
    cases hnow : rootNow (jailStep r.sys act) n with
    | none => rfl
    | some x =>
      obtain ⟨k', j', hj', rfl, rfl⟩ := rootNow_some hnow
      have htag := hm.tag k'
      rw [hj', map_some] at htag
      by_cases hk : k' = k
      · rw [if_pos hk] at htag
        exact absurd (congrArg Prod.fst (Option.some.inj htag)) hn
      · rw [if_neg hk] at htag
        obtain ⟨y, hy, hys, hyr⟩ := tag_some htag.symm
        rw [getD_some, ← (show y.serial = j'.serial from hys), (h.root hy).1]
        exact hyr.symm

theorem Logged.made (h : Logged r) (hfirst : 0 < r.sys.nextSerial)
    (hm : Made r.sys (jailStep r.sys act) parent croot k) : Logged (rootStep r act) := by
  have hlog := rootStep_made h hm
  obtain ⟨hlt, -, hpok⟩ := h.ofParent hfirst parent
  -- a jail in use is the new one, or an older one
  have hold : ∀ {m j}, jailFind (rootStep r act).sys m = some j →
      m = k ∧ j.serial = r.sys.nextSerial ∧ j.root = jailRoot (parentRoot r.sys parent) croot ∨
      m ≠ k ∧ ∃ j', jailFind r.sys m = some j' ∧ j'.serial = j.serial ∧ j'.root = j.root := by
    intro m j hj
    have htag : some j.tag = _ := (congrArg (Option.map tag) hj).symm.trans (hm.tag m)
    by_cases hmk : m = k
    · rw [if_pos hmk] at htag
      have heq := Option.some.inj htag
      exact .inl ⟨hmk, congrArg Prod.fst heq, congrArg Prod.snd heq⟩
    · rw [if_neg hmk] at htag
      exact .inr ⟨hmk, tag_some htag.symm⟩
  have hnext : (rootStep r act).sys.nextSerial = r.sys.nextSerial + 1 := hm.next
  have hcreator : (rootStep r act).sys.creator = _ := hm.creator
  constructor
  case bound =>
    intro m j hj
    rw [hnext]
    rcases hold hj with ⟨-, hserial, -⟩ | ⟨-, j', hj', hserial, -⟩
    · omega
    · have hb := h.bound hj'
      omega
  case down =>
    intro n hn
    rw [hcreator]
    by_cases hnew : n = r.sys.nextSerial
    · subst hnew
      rw [update_self]
      exact hlt
    · rw [update_of_ne hnew]
      exact h.down n hn
  case host =>
    rw [hcreator, update_of_ne hfirst.ne]
    exact h.host
  case root =>
    intro m j hj
    rw [hlog]
    rcases hold hj with ⟨-, hserial, hroot⟩ | ⟨-, j', hj', hserial, hroot⟩
    · rw [hserial, update_self, hroot]
      exact ⟨rfl, jailRoot_ok hpok hm.short⟩
    · have hb := (h.bound hj').2
      rw [← hserial, update_of_ne hb.ne, ← hroot]
      exact h.root hj'
  case hostRoot =>
    rw [hlog, update_of_ne hfirst.ne]
    exact h.hostRoot

theorem Inside.refl (x : Text) : Inside x x := prefix_rfl

theorem Inside.trans {x y z : Text} (h : Inside x y) (h' : Inside y z) : Inside x z :=
  List.IsPrefix.trans h' h

theorem Logged.iterate_lt (h : Logged r) (i : ℕ) (hn : n < m) : r.sys.creator^[i] n < m := by
  induction i with
  | zero => exact hn
  | succ i ih =>
    rw [Function.iterate_succ_apply']
    rcases Nat.eq_zero_or_pos (r.sys.creator^[i] n) with h0 | hpos
    · rw [h0, h.host]
      exact (Nat.zero_le n).trans_lt hn
    · exact (h.down _ hpos).trans ih

theorem Logged.iterate_update (h : Logged r) {new v : ℕ} (i : ℕ) (hn : n < new) :
    (update r.sys.creator new v)^[i] n = r.sys.creator^[i] n := by
  induction i with
  | zero => rfl
  | succ i ih =>
    rw [Function.iterate_succ_apply', Function.iterate_succ_apply', ih,
      update_of_ne (h.iterate_lt i hn).ne]

theorem nestedRoots_made (h : Logged r) (hfirst : 0 < r.sys.nextSerial) (hnest : NestedRoots r)
    (hm : Made r.sys (jailStep r.sys act) parent croot k) :
    NestedRoots (rootStep r act) ↔ StaysIn (parentRoot r.sys parent) croot := by
  obtain ⟨hlt, hproot, hpok⟩ := h.ofParent hfirst parent
  have hlog := rootStep_made h hm
  have hcreator : (rootStep r act).sys.creator = update r.sys.creator r.sys.nextSerial
    (parentSerial r.sys parent) := hm.creator
  have hnext : (rootStep r act).sys.nextSerial = r.sys.nextSerial + 1 := hm.next
  rw [← jailRoot_within_iff hpok]
  constructor
  · intro hall
    have hnew := hall r.sys.nextSerial (parentSerial r.sys parent) hfirst (by omega)
      ⟨0, by rw [hcreator]; exact update_self ..⟩
    rw [hlog, update_self, update_of_ne hlt.ne, hproot] at hnew
    exact hnew
  · rintro hin n m hn hlast ⟨i, hi⟩
    rw [hcreator] at hi
    rw [hlog]
    by_cases hnew : n = r.sys.nextSerial
    · subst hnew
      rw [Function.iterate_succ_apply, update_self, h.iterate_update i hlt] at hi
      have hmlt : m < r.sys.nextSerial := hi ▸ h.iterate_lt i hlt
      rw [update_self, update_of_ne hmlt.ne]
      -- up to the parent, and from there as before
      refine hin.trans ?_
      rw [← hproot]
      rcases i with _ | i
      · rw [← hi]
        exact .refl _
      · rcases Nat.eq_zero_or_pos (parentSerial r.sys parent) with h0 | hpos
        · rw [h0] at hi ⊢
          rw [Function.iterate_fixed h.host] at hi
          rw [hi]
          exact .refl _
        · exact hnest _ m hpos hlt ⟨i, hi⟩
    · have hnlt : n < r.sys.nextSerial := by omega
      rw [h.iterate_update (i + 1) hnlt] at hi
      have hmlt : m < r.sys.nextSerial := hi ▸ h.iterate_lt (i + 1) hnlt
      rw [update_of_ne hnew, update_of_ne hmlt.ne]
      exact hnest n m hn hnlt ⟨i, hi⟩

theorem nestedRoots_step (h : Logged r) (hfirst : 0 < r.sys.nextSerial) (hnest : NestedRoots r)
    (act : JailAct) : NestedRoots (rootStep r act) ↔ NestOk r act := by
  rcases jailStep_roots r.sys act with hs | ⟨parent, croot, k, hc, hm⟩
  · refine iff_of_true ?_ fun _ _ _ hlt => absurd hs.next hlt.ne'
    intro n m hn hlast hchain
    rw [rootStep_fewer h hs]
    have hcreator : (rootStep r act).sys.creator = r.sys.creator := hs.creator
    refine hnest n m hn (hlast.trans_eq hs.next) ?_
    rwa [InChain, hcreator] at hchain
  · rw [nestedRoots_made h hfirst hnest hm]
    constructor
    · intro hstay p' c' hc' _
      rw [hc] at hc'
      cases hc'
      exact hstay
    · intro hok
      exact hok parent croot hc (by rw [hm.next]; exact Nat.lt_succ_self _)

def RootLog.start (s : JailSys) : RootLog := ⟨s, fun _ => []⟩

theorem JailStart.logged (h : JailStart s) : Logged (start s) := by
  have hno : ∀ {k : ℕ} {j : Jail}, jailFind (start s).sys k ≠ some j := by
    intro k j hj
    obtain ⟨-, -, rfl, hst⟩ := jailFind_some hj
    exact hst (h.jails k)
  refine ⟨fun hj => absurd hj hno, ?_, congrFun h.serials.2 0, fun hj => absurd hj hno, rfl⟩
  intro n hn
  rw [show (start s).sys.creator = fun _ => 0 from h.serials.2]
  exact hn

theorem Logged.step (h : Logged r ∧ 0 < r.sys.nextSerial) (act : JailAct) :
    Logged (rootStep r act) ∧ 0 < (rootStep r act).sys.nextSerial := by
  obtain ⟨hr, hfirst⟩ := h
  rcases jailStep_roots r.sys act with hs | ⟨parent, croot, k, -, hm⟩
  · exact ⟨hr.fewer hs, hfirst.trans_eq hs.next.symm⟩
  · exact ⟨hr.made hfirst hm, hm.next ▸ Nat.succ_pos _⟩

theorem Logged.run (h : Logged r ∧ 0 < r.sys.nextSerial) (acts : List JailAct) :
    Logged (exec rootStep r acts) ∧ 0 < (exec rootStep r acts).sys.nextSerial := by
  induction acts generalizing r with
  | nil => exact h
  | cons act acts ih => exact ih (Logged.step h act)

theorem Logged.create_within_iff (h : Logged r) (hfirst : 0 < r.sys.nextSerial) {cfg : JailConf}
    (hk : (jailCreate r.sys parent cfg) = ((k : ℤ), t)) :
    Inside (parentRoot t k) (parentRoot r.sys parent) ↔
      StaysIn (parentRoot r.sys parent) cfg.root := by
  rcases jailCreate_made r.sys parent cfg with ⟨e, he, heq⟩ | ⟨k', -, hrc, hmade⟩
  · rw [hk] at heq
    have hneg := congrArg Prod.fst heq
    omega
  · rw [hk] at hrc hmade
    have hkk : k = k' := by simpa using hrc
    subst hkk
    obtain ⟨j, hj, -, hroot⟩ := tag_some ((hmade.tag k).trans (if_pos rfl))
    have hnew : parentRoot t k = jailRoot (parentRoot r.sys parent) cfg.root := by
      rw [parentRoot, hj]
      exact hroot
    rw [hnew]
    exact jailRoot_within_iff (h.ofParent hfirst parent).2.2

/-- A jail lies within its parent just when the requested root does not lead beside it; and
throughout a run every jail lies within all those it was made in just when none is made beside its
parent. -/
theorem jail_roots_nested_iff (h : JailStart s) (acts : List JailAct) :
    (∀ parent cfg k t, let r := exec rootStep (.start s) acts
      jailCreate r.sys parent cfg = (((k : ℕ) : ℤ), t) →
        (Inside (parentRoot t k) (parentRoot r.sys parent) ↔
          StaysIn (parentRoot r.sys parent) cfg.root)) ∧
    (Always rootStep NestedRoots (.start s) acts ↔ Along rootStep NestOk (.start s) acts) := by
  have hstart : Logged (.start s) ∧ 0 < (start s).sys.nextSerial :=
    ⟨h.logged, h.serials.1.symm ▸ Nat.one_pos⟩
  constructor
  · intro parent cfg k t r hk
    obtain ⟨hr, hfirst⟩ := Logged.run hstart acts
    exact hr.create_within_iff hfirst hk
  · refine always_iff_along (I := fun r => Logged r ∧ 0 < r.sys.nextSerial) hstart ?_
      (fun r act hr _ _ => Logged.step hr act) ?_
    · intro n m hn hlast
      have hone : (start s).sys.nextSerial = 1 := h.serials.1
      omega
    · rintro r act ⟨hr, hfirst⟩ hnest
      exact nestedRoots_step hr hfirst hnest act

end

def makeRooted (i : Fin Fs.procMax) (root : Text) : JailAct :=
  .call i (.create 0 true true ⟨root, 0, 0, true⟩)

theorem jail_roots_nested_iff_boot :
    let r := exec rootStep (.start bootJails) [makeRooted 1 ['j']]
    (∀ parent cfg k t, jailCreate r.sys parent cfg = (((k : ℕ) : ℤ), t) →
        (Inside (parentRoot t k) (parentRoot r.sys parent) ↔
          StaysIn (parentRoot r.sys parent) cfg.root)) ∧
    (Always rootStep NestedRoots (.start bootJails) [makeRooted 1 ['j']] ↔
      Along rootStep NestOk (.start bootJails) [makeRooted 1 ['j']]) :=
  jail_roots_nested_iff bootJails_start [makeRooted 1 ['j']]

/-- In the jail at `/a`, a jail is made at `../ab`: it gets `/ab`, which is not below `/a`. -/
theorem sibling_root_escapes :
    let acts := [makeRooted 1 ['a'], makeRooted 1 ['.', '.', '/', 'a', 'b']]
    (exec rootStep (.start bootJails) acts).rootOf 1 = ['/', 'a'] ∧
      (exec rootStep (.start bootJails) acts).rootOf 2 = ['/', 'a', 'b'] ∧
      ¬ Always rootStep NestedRoots (.start bootJails) acts := by
  intro acts
  have h1 : (exec rootStep (.start bootJails) acts).rootOf 1 = ['/', 'a'] := by decide +kernel
  have h2 : (exec rootStep (.start bootJails) acts).rootOf 2 = ['/', 'a', 'b'] := by
    decide +kernel
  refine ⟨h1, h2, fun hall => ?_⟩
  have hend := hall acts prefix_rfl 2 1 (by decide) (by decide +kernel)
    ⟨0, by decide +kernel⟩
  rw [h1, h2] at hend
  exact absurd hend (by unfold Inside; decide +kernel)

end Kyronix.Proc
