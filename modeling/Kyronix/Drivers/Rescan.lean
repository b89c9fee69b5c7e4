import Kyronix.Drivers.BlockNode

/-! BLKRRPART: `partition_rescan_disk` (`partition.c`) with the device table (`block.c`), the `/dev`
nodes (`blockdev.c`), the open descriptors and the mounted filesystem (`g_dev` of `ext2.c`). -/
namespace Kyronix.Drivers.Rescan

open Lib.Run Lib.Ring Lib.Bytes Function List Option

structure BlockDevice where
  name : List Char
  parent : Option ℕ

/-- A device is named by its allocation. `fds` has the `fs_private` of the node of each open
descriptor. -/
structure Sys where
  heap : ℕ → Option BlockDevice
  next : ℕ
  table : List ℕ
  nodes : List Char → Option ℕ
  fds : ℕ → Option ℕ
  mounted : Option ℕ

open Sys

/-- What a rescan finds: the disk, whether its first sector can be read and a device allocated, and
whether `vfs_unlink` and `vfs_create_chr` of a node go through. -/
structure Env where
  disk : Disk
  mem : Bool
  room : ℕ → Bool
  unlink : List Char → Bool
  create : List Char → Bool

variable {s : Sys} {env : Env} {disk p q i fd : ℕ} {d e : BlockDevice} {name : List Char}

def blockMaxDevices : ℕ := 32

def blockNameMax : ℕ := 16

def Sys.blockRegister (s : Sys) (p : ℕ) : Sys :=
  if blockMaxDevices ≤ s.table.length then s else { s with table := s.table ++ [p] }

def Sys.blockUnregister (s : Sys) (p : ℕ) : Sys := { s with table := s.table.erase p }

def Sys.kfree (s : Sys) (p : ℕ) : Sys := { s with heap := update s.heap p none }

def Sys.blockByName (s : Sys) (name : List Char) : Option ℕ :=
  s.table.find? fun p => (s.heap p).any (·.name == name)

def Sys.blockdevCreateNode (s : Sys) (env : Env) (p : ℕ) (d : BlockDevice) : Sys :=
  if s.nodes d.name = none ∧ env.create d.name then
    { s with nodes := update s.nodes d.name (some p) }
  else s

def Sys.blockdevRemoveNode (s : Sys) (env : Env) (d : BlockDevice) : Sys :=
  if env.unlink d.name then { s with nodes := update s.nodes d.name none } else s

def partName (name : List Char) (i : ℕ) : List Char :=
  (name ++ [Nat.digitChar (i + 1)]).take (blockNameMax - 1)

def mbrParts (env : Env) : List ℕ :=
  if env.disk.sectorSize < 512 ∨ env.mem = false then []
  else if decode (slice env.disk.data 510 2) ≠ 0xAA55 then []
  else (List.range 4).filter fun i =>
    env.room i && (env.disk.mbrEntry env.disk.data (446 + 16 * i)).isSome

def dropChild (env : Env) (disk : ℕ) (s : Sys) (p : ℕ) : Sys :=
  match s.heap p with
  | none => s
  | some d =>
    if d.parent = some disk then ((s.blockdevRemoveNode env d).blockUnregister p).kfree p else s

def addChild (disk : ℕ) (name : List Char) (s : Sys) (i : ℕ) : Sys :=
  blockRegister
    { s with
      heap := update s.heap s.next (some ⟨partName name i, some disk⟩)
      next := s.next + 1 }
    s.next

def nameChild (env : Env) (disk : ℕ) (s : Sys) (p : ℕ) : Sys :=
  match s.heap p with
  | none => s
  | some d => if d.parent = some disk then s.blockdevCreateNode env p d else s

def partitionRescanDisk (s : Sys) (disk : ℕ) (env : Env) : Sys :=
  match s.heap disk with
  | none => s
  | some d =>
    if d.parent.isSome then s
    else
      let s := s.table.foldl (dropChild env disk) s
      let before := s.table.length
      let s := (mbrParts env).foldl (addChild disk d.name) s
      (s.table.drop before).foldl (nameChild env disk) s

inductive Act
  | open (fd : ℕ) (name : List Char)
  | io (fd : ℕ)
  | close (fd : ℕ)
  | mount (name : List Char) (ok : Bool)
  | fsIo
  | umount
  | rescan (fd : ℕ) (env : Env)

def step (s : Sys) : Act → Sys
  | .open fd name =>
    if s.fds fd = none then { s with fds := update s.fds fd (s.nodes name) } else s
  | .io _ => s
  | .close fd => { s with fds := update s.fds fd none }
  | .mount name ok =>
    match s.mounted, s.blockByName name with
    | none, some p => if ok then { s with mounted := some p } else s
    | _, _ => s
  | .fsIo => s
  | .umount => { s with mounted := none }
  | .rescan fd env =>
    match s.fds fd with
    | some disk => partitionRescanDisk s disk env
    | none => s

def Sys.chain (s : Sys) (p : ℕ) : List ℕ := p :: ((s.heap p).bind (·.parent)).toList

def Sys.uses (s : Sys) : Act → List ℕ
  | .io fd => (s.fds fd).toList.flatMap s.chain
  | .mount name _ => s.table ++ (s.blockByName name).toList.flatMap s.chain
  | .fsIo | .umount => s.mounted.toList.flatMap s.chain
  | .rescan fd _ => (s.fds fd).toList ++ s.table
  | .open .. | .close _ => []

def Sys.Live (s : Sys) (p : ℕ) : Prop := (s.heap p).isSome = true

def TableOk (s : Sys) : Prop :=
  ∀ p ∈ s.table, ∃ d, s.heap p = some d ∧ ∀ q, s.nodes d.name = some q → q = p

structure Idle (s : Sys) (env : Env) (p : ℕ) (d : BlockDevice) : Prop where
  fds : ∀ fd, s.fds fd ≠ some p
  mounted : s.mounted ≠ some p
  unlink : env.unlink d.name = true

def AllIdle (env : Env) (disk : ℕ) (s : Sys) : Prop :=
  ∀ p ∈ s.table, ∀ d, s.heap p = some d → d.parent = some disk → Idle s env p d

def Quiet (s : Sys) : Act → Prop
  | .rescan fd env => ∀ disk, s.fds fd = some disk → AllIdle env disk s
  | _ => True

/-- The names the drivers give to disks: `sd%c`, `ehd%d`, `uhd%d` and `usb%d`, of few disks. -/
def DriverName (name : List Char) : Prop :=
  ∃ c, name = ['s', 'd', c] ∨ name = ['e', 'h', 'd', c] ∨ name = ['u', 'h', 'd', c] ∨
    name = ['u', 's', 'b', c]

theorem DriverName.partName_eq (h : DriverName name) (i : ℕ) :
    partName name i = name ++ [Nat.digitChar (i + 1)] := by
  obtain ⟨c, rfl | rfl | rfl | rfl⟩ := h <;> rfl

theorem DriverName.ne_partName {name' : List Char} (h : DriverName name) (h' : DriverName name')
    (i : ℕ) : name' ≠ partName name i := by
  rw [h.partName_eq i]
  obtain ⟨c, rfl | rfl | rfl | rfl⟩ := h <;> obtain ⟨c', rfl | rfl | rfl | rfl⟩ := h' <;> simp

theorem DriverName.partName_inj {name' : List Char} {j : ℕ} (h : DriverName name)
    (h' : DriverName name') (hi : i < 4) (hj : j < 4) (heq : partName name i = partName name' j) :
    name = name' ∧ i = j := by
  rw [h.partName_eq, h'.partName_eq] at heq
  obtain ⟨hname, hdigit⟩ := append_inj' heq rfl
  refine ⟨hname, ?_⟩
  have hchar := singleton_inj.mp hdigit
  interval_cases i <;> interval_cases j <;> first | rfl | exact absurd hchar (by decide)

structure Inv (s : Sys) : Prop where
  nodup : s.table.Nodup
  fresh : ∀ p, s.next ≤ p → s.heap p = none
  tabled : ∀ p ∈ s.table, s.Live p
  node : ∀ n p, s.nodes n = some p → p ∈ s.table ∧ ∃ d, s.heap p = some d ∧ d.name = n
  fd : ∀ fd p, s.fds fd = some p → s.Live p
  mount : ∀ p, s.mounted = some p → s.Live p
  part : ∀ p d q, s.heap p = some d → d.parent = some q →
    ∃ e, s.heap q = some e ∧ e.parent = none ∧ ∃ i < 4, d.name = partName e.name i
  disk : ∀ p d, s.heap p = some d → d.parent = none → DriverName d.name
  oneDisk : ∀ p q d e, s.heap p = some d → s.heap q = some e → d.parent = none → e.parent = none →
    d.name = e.name → p = q
  oneName : ∀ p ∈ s.table, ∀ q ∈ s.table, ∀ d e, s.heap p = some d → s.heap q = some e →
    d.name = e.name → p = q

theorem Inv.tableOk (h : Inv s) : TableOk s := by
  intro p hp
  obtain ⟨d, hd⟩ := isSome_iff_exists.mp (h.tabled p hp)
  refine ⟨d, hd, fun q hq => ?_⟩
  obtain ⟨hmem, e, he, hname⟩ := h.node _ _ hq
  exact h.oneName q hmem p hp e d he hd hname

theorem Inv.live_chain (h : Inv s) (hp : s.Live p) (hq : q ∈ s.chain p) : s.Live q := by
  obtain ⟨d, hd⟩ := isSome_iff_exists.mp hp
  rcases mem_cons.mp hq with rfl | hq
  · exact hp
  · rw [hd] at hq
    obtain ⟨e, he, -⟩ := h.part p d q hd (mem_toList.mp hq)
    exact isSome_iff_exists.mpr ⟨e, he⟩

theorem Inv.live_flatMap (h : Inv s) {o : Option ℕ} (ho : ∀ p, o = some p → s.Live p)
    (hq : q ∈ o.toList.flatMap s.chain) : s.Live q := by
  obtain ⟨p, hp, hq⟩ := mem_flatMap.mp hq
  exact h.live_chain (ho p (mem_toList.mp hp)) hq

theorem Inv.live_byName (h : Inv s) (hp : s.blockByName name = some p) : s.Live p :=
  h.tabled p (mem_of_find?_eq_some hp)

theorem Inv.uses_live (h : Inv s) (a : Act) : ∀ p ∈ s.uses a, s.Live p := by
  intro p hp
  cases a with
  | «open» fd name => cases hp
  | io fd => exact h.live_flatMap (h.fd fd) hp
  | close fd => cases hp
  | mount name ok =>
    rcases mem_append.mp hp with hp | hp
    · exact h.tabled p hp
    · exact h.live_flatMap (fun q => h.live_byName) hp
  | fsIo => exact h.live_flatMap h.mount hp
  | umount => exact h.live_flatMap h.mount hp
  | rescan fd env =>
    rcases mem_append.mp hp with hp | hp
    · exact h.fd fd p (mem_toList.mp hp)
    · exact h.tabled p hp

theorem heap_kfree : (s.kfree p).heap q = some d ↔ q ≠ p ∧ s.heap q = some d := by
  unfold kfree
  by_cases hq : q = p
  · subst hq
    simp
  · simp [hq]

theorem Inv.dropPart (h : Inv s) (hp : p ∈ s.table) (hd : s.heap p = some d)
    (hpar : d.parent = some disk) (hidle : Idle s env p d) :
    Inv (((s.blockdevRemoveNode env d).blockUnregister p).kfree p) := by
  rw [blockdevRemoveNode, if_pos hidle.unlink]
  have hmem : ∀ q, q ∈ s.table.erase p ↔ q ≠ p ∧ q ∈ s.table := fun q => h.nodup.mem_erase_iff
  have hlive : ∀ q, q ≠ p → s.Live q → (update s.heap p none q).isSome = true := by
    intro q hq hl
    rw [update_of_ne hq]
    exact hl
  refine ⟨h.nodup.erase p, ?_, ?_, ?_, ?_, ?_, ?_, ?_, ?_, ?_⟩
  · intro q hq
    by_cases hqp : q = p
    · subst hqp
      exact update_self ..
    · exact (update_of_ne hqp ..).trans (h.fresh q hq)
  · intro q hq
    obtain ⟨hqp, hq⟩ := (hmem q).mp hq
    exact hlive q hqp (h.tabled q hq)
  · intro n q hn
    -- a node of another name is that of another device
    rcases eq_or_ne n d.name with rfl | hne
    · exact nomatch (update_self ..).symm.trans hn
    obtain ⟨hq, e, he, rfl⟩ := h.node n q ((update_of_ne hne ..).symm.trans hn)
    have hqp : q ≠ p := by
      rintro rfl
      rw [hd] at he
      cases he
      exact hne rfl
    exact ⟨(hmem q).mpr ⟨hqp, hq⟩, e, heap_kfree.mpr ⟨hqp, he⟩, rfl⟩
  · intro fd q hq
    exact hlive q (fun hqp => hidle.fds fd (hqp ▸ hq)) (h.fd fd q hq)
  · intro q hq
    exact hlive q (fun hqp => hidle.mounted (hqp ▸ hq)) (h.mount q hq)
  · intro q e r he hr
    obtain ⟨f, hf, hroot, hname⟩ := h.part q e r (heap_kfree.mp he).2 hr
    refine ⟨f, heap_kfree.mpr ⟨?_, hf⟩, hroot, hname⟩
    rintro rfl
    rw [hd] at hf
    cases hf
    rw [hpar] at hroot
    cases hroot
  · intro q e he
    exact h.disk q e (heap_kfree.mp he).2
  · intro q r e f he hf
    exact h.oneDisk q r e f (heap_kfree.mp he).2 (heap_kfree.mp hf).2
  · intro q hq r hr e f he hf
    exact h.oneName q ((hmem q).mp hq).2 r ((hmem r).mp hr).2 e f (heap_kfree.mp he).2
      (heap_kfree.mp hf).2

structure Dropping (env : Env) (disk : ℕ) (todo : List ℕ) (s : Sys) : Prop where
  inv : Inv s
  idle : AllIdle env disk s
  nodup : todo.Nodup
  sub : ∀ p ∈ todo, p ∈ s.table
  todo : ∀ p ∈ s.table, ∀ d, s.heap p = some d → d.parent = some disk → p ∈ todo

variable {todo : List ℕ}

theorem Dropping.dropChild (h : Dropping env disk (p :: todo) s) :
    Dropping env disk todo (dropChild env disk s p) := by
  obtain ⟨hnotin, hnodup⟩ := nodup_cons.mp h.nodup
  have hp := h.sub p mem_cons_self
  obtain ⟨d, hd⟩ := isSome_iff_exists.mp (h.inv.tabled p hp)
  unfold Rescan.dropChild
  rw [hd]
  dsimp only
  split
  · next hpar =>
    have hidle := h.idle p hp d hd hpar
    have hmem : ∀ q, q ∈ s.table.erase p ↔ q ≠ p ∧ q ∈ s.table :=
      fun q => h.inv.nodup.mem_erase_iff
    refine ⟨h.inv.dropPart hp hd hpar hidle, ?_, hnodup, ?_, ?_⟩ <;>
      rw [blockdevRemoveNode, if_pos hidle.unlink]
    · intro q hq e he hq'
      obtain ⟨hfds, hmounted, hunlink⟩ :=
        h.idle q ((hmem q).mp hq).2 e (heap_kfree.mp he).2 hq'
      exact ⟨hfds, hmounted, hunlink⟩
    · intro q hq
      refine (hmem q).mpr ⟨fun hqp => hnotin (hqp ▸ hq), h.sub q (mem_cons_of_mem p hq)⟩
    · intro q hq e he hq'
      obtain ⟨hqp, hq⟩ := (hmem q).mp hq
      exact mem_of_ne_of_mem hqp (h.todo q hq e (heap_kfree.mp he).2 hq')
  · next hpar =>
    refine ⟨h.inv, h.idle, hnodup, fun q hq => h.sub q (mem_cons_of_mem p hq), ?_⟩
    intro q hq e he hq'
    refine mem_of_ne_of_mem ?_ (h.todo q hq e he hq')
    rintro rfl
    rw [hd] at he
    cases he
    exact hpar hq'

theorem Dropping.foldl (h : Dropping env disk todo s) :
    Dropping env disk [] (todo.foldl (Rescan.dropChild env disk) s) := by
  induction todo generalizing s with
  | nil => exact h
  | cons p todo ih => exact ih h.dropChild

structure Adding (disk : ℕ) (name : List Char) (todo : List ℕ) (s : Sys) : Prop where
  inv : Inv s
  isDisk : s.heap disk = some ⟨name, none⟩
  nodup : todo.Nodup
  small : ∀ i ∈ todo, i < 4
  todo : ∀ p ∈ s.table, ∀ d, s.heap p = some d → ∀ i ∈ todo, d.name ≠ partName name i

theorem heap_addChild (h : Inv s) :
    (addChild disk name s i).heap q = some d ↔
      (q = s.next ∧ d = ⟨partName name i, some disk⟩) ∨ s.heap q = some d := by
  have hheap : (addChild disk name s i).heap =
      update s.heap s.next (some ⟨partName name i, some disk⟩) := by
    unfold addChild blockRegister
    split <;> rfl
  rw [hheap]
  by_cases hq : q = s.next
  · subst hq
    rw [update_self, h.fresh _ le_rfl]
    simp [eq_comm]
  · rw [update_of_ne hq]
    simp [hq]

theorem mem_addChild (hp : p ∈ (addChild disk name s i).table) : p = s.next ∨ p ∈ s.table := by
  unfold addChild blockRegister at hp
  split at hp
  · exact .inr hp
  · rcases mem_append.mp hp with hp | hp
    · exact .inr hp
    · exact .inl (mem_singleton.mp hp)

theorem addChild_fields (disk : ℕ) (name : List Char) (s : Sys) (i : ℕ) :
    (addChild disk name s i).nodes = s.nodes ∧ (addChild disk name s i).fds = s.fds ∧
      (addChild disk name s i).mounted = s.mounted ∧
      (addChild disk name s i).next = s.next + 1 ∧
      ((addChild disk name s i).table = s.table ∨
        (addChild disk name s i).table = s.table ++ [s.next]) := by
  unfold addChild blockRegister
  split
  · exact ⟨rfl, rfl, rfl, rfl, .inl rfl⟩
  · exact ⟨rfl, rfl, rfl, rfl, .inr rfl⟩

theorem Adding.inv_addChild (h : Adding disk name (i :: todo) s) :
    Inv (addChild disk name s i) := by
  obtain ⟨hnodes, hfds, hmounted, hnext, htable⟩ :=
    addChild_fields disk name s i
  have hsub : ∀ q ∈ s.table, q ∈ (addChild disk name s i).table := by
    intro q hq
    rcases htable with ht | ht <;> rw [ht]
    · exact hq
    · exact mem_append_left _ hq
  have hkept : ∀ {q e}, s.heap q = some e → (addChild disk name s i).heap q = some e :=
    fun he => (heap_addChild h.inv).mpr (.inr he)
  have hlive : ∀ q, s.Live q → (addChild disk name s i).Live q := by
    intro q hq
    obtain ⟨e, he⟩ := isSome_iff_exists.mp hq
    exact isSome_iff_exists.mpr ⟨e, hkept he⟩
  have hnew : s.next ∉ s.table := fun hmem => by
    have := h.inv.tabled _ hmem
    rw [Sys.Live, h.inv.fresh _ le_rfl] at this
    cases this
  refine ⟨?_, ?_, ?_, ?_, ?_, ?_, ?_, ?_, ?_, ?_⟩
  · rcases htable with ht | ht <;> rw [ht]
    · exact h.inv.nodup
    · exact nodup_append.mpr ⟨h.inv.nodup, nodup_singleton _, by
        rintro q hq r hr rfl
        exact hnew (mem_singleton.mp hr ▸ hq)⟩
  · intro q hq
    rw [hnext] at hq
    cases hq' : (addChild disk name s i).heap q with
    | none => rfl
    | some e =>
      rcases (heap_addChild h.inv).mp hq' with ⟨rfl, -⟩ | he
      · omega
      · rw [h.inv.fresh q (by omega)] at he
        cases he
  · intro q hq
    rcases mem_addChild hq with rfl | hq
    · exact isSome_iff_exists.mpr ⟨_, (heap_addChild h.inv).mpr (.inl ⟨rfl, rfl⟩)⟩
    · exact hlive q (h.inv.tabled q hq)
  · intro n q hq
    rw [hnodes] at hq
    obtain ⟨hmem, e, he, hname⟩ := h.inv.node n q hq
    exact ⟨hsub q hmem, e, hkept he, hname⟩
  · intro fd q hq
    rw [hfds] at hq
    exact hlive q (h.inv.fd fd q hq)
  · intro q hq
    rw [hmounted] at hq
    exact hlive q (h.inv.mount q hq)
  · intro q e r he hr
    rcases (heap_addChild h.inv).mp he with ⟨rfl, rfl⟩ | he
    · cases hr
      exact ⟨_, hkept h.isDisk, rfl, i, h.small i mem_cons_self, rfl⟩
    · obtain ⟨f, hf, hrest⟩ := h.inv.part q e r he hr
      exact ⟨f, hkept hf, hrest⟩
  · intro q e he hroot
    rcases (heap_addChild h.inv).mp he with ⟨rfl, rfl⟩ | he
    · cases hroot
    · exact h.inv.disk q e he hroot
  · intro q r e f he hf hq hr
    rcases (heap_addChild h.inv).mp he with ⟨rfl, rfl⟩ | he
    · cases hq
    rcases (heap_addChild h.inv).mp hf with ⟨rfl, rfl⟩ | hf
    · cases hr
    exact h.inv.oneDisk q r e f he hf hq hr
  · -- a device of the table never has the name of the entry that is added
    have hother : ∀ q ∈ s.table, ∀ e, (addChild disk name s i).heap q = some e →
        s.heap q = some e ∧ e.name ≠ partName name i := by
      intro q hq e he
      rcases (heap_addChild h.inv).mp he with ⟨rfl, -⟩ | he
      · exact absurd hq hnew
      · exact ⟨he, h.todo q hq e he i mem_cons_self⟩
    have hown : ∀ e, (addChild disk name s i).heap s.next = some e → e.name = partName name i := by
      intro e he
      rcases (heap_addChild h.inv).mp he with ⟨-, rfl⟩ | he
      · rfl
      · rw [h.inv.fresh _ le_rfl] at he
        cases he
    intro q hq r hr e f he hf hname
    rcases mem_addChild hq with rfl | hq <;> rcases mem_addChild hr with rfl | hr
    · rfl
    · exact absurd (hname.symm.trans (hown e he)) (hother r hr f hf).2
    · exact absurd (hname.trans (hown f hf)) (hother q hq e he).2
    · exact h.inv.oneName q hq r hr e f (hother q hq e he).1 (hother r hr f hf).1 hname

theorem Adding.addChild (h : Adding disk name (i :: todo) s) :
    Adding disk name todo (addChild disk name s i) := by
  obtain ⟨hnotin, hnodup⟩ := nodup_cons.mp h.nodup
  refine ⟨h.inv_addChild, (heap_addChild h.inv).mpr (.inr h.isDisk), hnodup,
    fun j hj => h.small j (mem_cons_of_mem i hj), ?_⟩
  intro p hp d hd j hj
  have hj' := mem_cons_of_mem i hj
  rcases (heap_addChild h.inv).mp hd with ⟨-, rfl⟩ | hold
  · have hdisk := h.inv.disk disk _ h.isDisk rfl
    intro heq
    obtain ⟨-, rfl⟩ :=
      hdisk.partName_inj hdisk (h.small i mem_cons_self) (h.small j hj') heq
    exact hnotin hj
  rcases mem_addChild hp with rfl | hp
  · rw [h.inv.fresh _ le_rfl] at hold
    cases hold
  · exact h.todo p hp d hold j hj'

theorem Adding.foldl (h : Adding disk name todo s) :
    Inv (todo.foldl (Rescan.addChild disk name) s) := by
  induction todo generalizing s with
  | nil => exact h.inv
  | cons i todo ih => exact ih h.addChild

theorem mbrParts_nodup (env : Env) : (mbrParts env).Nodup := by
  unfold mbrParts
  split
  · exact nodup_nil
  split
  · exact nodup_nil
  · exact nodup_range.filter _

theorem mbrParts_lt (env : Env) : ∀ i ∈ mbrParts env, i < 4 := by
  unfold mbrParts
  intro i hi
  split at hi
  · cases hi
  split at hi
  · cases hi
  · exact mem_range.mp (mem_filter.mp hi).1

theorem Dropping.adding (h : Dropping env disk [] s) (hdisk : s.heap disk = some ⟨name, none⟩) :
    Adding disk name (mbrParts env) s := by
  refine ⟨h.inv, hdisk, mbrParts_nodup env, mbrParts_lt env, ?_⟩
  intro p hp d hd i hi heq
  have hname := h.inv.disk disk _ hdisk rfl
  cases hpar : d.parent with
  | none => exact hname.ne_partName (h.inv.disk p d hd hpar) i heq
  | some q =>
    obtain ⟨e, he, hroot, j, hj, hj'⟩ := h.inv.part p d q hd hpar
    obtain ⟨hsame, -⟩ := (h.inv.disk q e he hroot).partName_inj hname hj (mbrParts_lt env i hi)
      (hj'.symm.trans heq)
    have hq := h.inv.oneDisk q disk e _ he hdisk hroot rfl hsame
    exact nomatch h.todo p hp d hd (hpar.trans (congrArg some hq))

theorem Inv.nameChild (h : Inv s) (hp : p ∈ s.table) : Inv (nameChild env disk s p) := by
  unfold Rescan.nameChild
  split
  · exact h
  next d hd =>
  split
  · unfold blockdevCreateNode
    split
    · refine ⟨h.nodup, h.fresh, h.tabled, ?_, h.fd, h.mount, h.part, h.disk, h.oneDisk, h.oneName⟩
      intro n q hq
      rcases eq_or_ne n d.name with rfl | hne
      · cases (update_self ..).symm.trans hq
        exact ⟨hp, d, hd, rfl⟩
      · exact h.node n q ((update_of_ne hne ..).symm.trans hq)
    · exact h
  · exact h

theorem nameChild_table : (nameChild env disk s p).table = s.table := by
  unfold nameChild
  split
  · rfl
  split
  · unfold blockdevCreateNode
    split <;> rfl
  · rfl

theorem Inv.nameChildren {l : List ℕ} (h : Inv s) (hl : ∀ p ∈ l, p ∈ s.table) :
    Inv (l.foldl (Rescan.nameChild env disk) s) := by
  induction l generalizing s with
  | nil => exact h
  | cons p l ih =>
    refine ih (h.nameChild (hl p mem_cons_self)) fun q hq => ?_
    rw [nameChild_table]
    exact hl q (mem_cons_of_mem p hq)

theorem heap_dropChildren {l : List ℕ} (hd : s.heap disk = some d) (hroot : d.parent = none) :
    (l.foldl (dropChild env disk) s).heap disk = some d := by
  induction l generalizing s with
  | nil => exact hd
  | cons p l ih =>
    refine ih ?_
    unfold dropChild
    split
    · exact hd
    next e he =>
    split
    · next hpar =>
      refine heap_kfree.mpr ⟨?_, ?_⟩
      · rintro rfl
        rw [hd] at he
        cases he
        rw [hroot] at hpar
        cases hpar
      · unfold blockdevRemoveNode
        split <;> exact hd
    · exact hd

theorem Inv.partitionRescanDisk (h : Inv s) (hidle : AllIdle env disk s) :
    Inv (partitionRescanDisk s disk env) := by
  unfold Rescan.partitionRescanDisk
  split
  · exact h
  next d hd =>
  obtain ⟨name, parent⟩ := d
  split
  · exact h
  · next hroot =>
    cases parent with
    | some q => exact absurd rfl hroot
    | none =>
      have hdrop : Dropping env disk s.table s :=
        ⟨h, hidle, h.nodup, fun _ hp => hp, fun _ hp _ _ _ => hp⟩
      have hadd := hdrop.foldl.adding (heap_dropChildren hd rfl)
      exact hadd.foldl.nameChildren fun p hp => mem_of_mem_drop hp

theorem Inv.step (h : Inv s) {a : Act} (hq : Quiet s a) : Inv (step s a) := by
  cases a with
  | «open» fd name =>
    unfold Rescan.step
    dsimp only
    split
    · refine { h with fd := ?_ }
      intro fd' p hp
      rcases eq_or_ne fd' fd with rfl | hne
      · exact h.tabled p (h.node name p (by simpa using hp)).1
      · exact h.fd fd' p ((update_of_ne hne ..).symm.trans hp)
    · exact h
  | io fd => exact h
  | close fd =>
    refine { h with fd := ?_ }
    intro fd' p hp
    rcases eq_or_ne fd' fd with rfl | hne
    · exact nomatch (update_self ..).symm.trans hp
    · exact h.fd fd' p ((update_of_ne hne ..).symm.trans hp)
  | mount name ok =>
    unfold Rescan.step
    dsimp only
    split
    · next hnone hname =>
      split
      · refine { h with mount := ?_ }
        intro p hp
        cases hp
        exact h.live_byName hname
      · exact h
    · exact h
  | fsIo => exact h
  | umount => exact { h with mount := nofun }
  | rescan fd env =>
    unfold Rescan.step
    dsimp only
    split
    · next disk hfd => exact h.partitionRescanDisk (hq disk hfd)
    · exact h

structure Disks where
  names : List (List Char)
  nodup : names.Nodup
  driver : ∀ name ∈ names, DriverName name

def Disks.attached (l : Disks) : Sys where
  heap p := l.names[p]?.map (⟨·, none⟩)
  next := l.names.length
  table := List.range (min blockMaxDevices l.names.length)
  nodes name := if l.names.idxOf name < min blockMaxDevices l.names.length
    then some (l.names.idxOf name) else none
  fds _ := none
  mounted := none

theorem Disks.inv (l : Disks) : Inv l.attached := by
  have hheap : ∀ {p d}, l.attached.heap p = some d →
      l.names[p]? = some d.name ∧ d.parent = none := by
    intro p d hd
    obtain ⟨name, hname, rfl⟩ := map_eq_some_iff.mp hd
    exact ⟨hname, rfl⟩
  have hinj : ∀ p q d e, l.attached.heap p = some d → l.attached.heap q = some e →
      d.name = e.name → p = q := by
    intro p q d e hd he hname
    obtain ⟨hp, hpd⟩ := List.getElem?_eq_some_iff.mp (hheap hd).1
    obtain ⟨hq, hqe⟩ := List.getElem?_eq_some_iff.mp (hheap he).1
    exact (l.nodup.getElem_inj_iff).mp (hpd.trans (hname.trans hqe.symm))
  refine ⟨nodup_range, ?_, ?_, ?_, nofun, nofun, ?_, ?_, ?_, ?_⟩
  · intro p hp
    exact map_eq_none_iff.mpr (List.getElem?_eq_none hp)
  · intro p hp
    have := mem_range.mp hp
    have hlt : p < l.names.length := by omega
    exact isSome_iff_exists.mpr
      ⟨_, map_eq_some_iff.mpr ⟨_, List.getElem?_eq_getElem hlt, rfl⟩⟩
  · intro n p hp
    dsimp only [Disks.attached] at hp
    split at hp
    · next hlt =>
      cases hp
      have hmem := idxOf_lt_length_iff.mp (lt_of_lt_of_le hlt (min_le_right _ _))
      refine ⟨mem_range.mpr hlt, ⟨n, none⟩, ?_, rfl⟩
      exact map_eq_some_iff.mpr ⟨n, List.getElem?_idxOf hmem, rfl⟩
    · cases hp
  · intro p d q hd hq
    rw [(hheap hd).2] at hq
    cases hq
  · intro p d hd _
    exact l.driver _ (mem_of_getElem? (hheap hd).1)
  · intro p q d e hd he _ _
    exact hinj p q d e hd he
  · intro p _ q _ d e hd he
    exact hinj p q d e hd he

theorem rescan_keeps_devices (l : Disks) (as : List Act) (h : Along step Quiet l.attached as) :
    Along step (fun s a => ∀ p ∈ s.uses a, s.Live p) l.attached as ∧
      Always step TableOk l.attached as := by
  have hinv := h.always l.inv fun s a hs ha => hs.step ha
  constructor
  · intro pre a hp
    exact (hinv pre ((prefix_append pre [a]).trans hp)).uses_live a
  · intro pre hp
    exact (hinv pre hp).tableOk

def partitioned : Env where
  disk := ⟨64, 512, fun p => if p = 510 then 0x55 else if p = 511 then 0xAA
    else if p = 450 then 0x83 else if p = 454 then 1 else if p = 458 then 8 else 0, []⟩
  mem := true
  room _ := true
  unlink _ := true
  create _ := true

def refused : Env := { partitioned with unlink := fun _ => false }

def oneDisk : Disks where
  names := [['s', 'd', 'a']]
  nodup := nodup_singleton _
  driver _ h := ⟨'a', .inl (mem_singleton.mp h)⟩

def rescans : List Act :=
  [.open 0 ['s', 'd', 'a'], .rescan 0 partitioned, .open 1 ['s', 'd', 'a', '1'], .io 1, .close 1,
    .rescan 0 partitioned]

theorem rescan_keeps_devices_closed : Along step Quiet oneDisk.attached rescans ∧
    Along step (fun s a => ∀ p ∈ s.uses a, s.Live p) oneDisk.attached rescans ∧
      Always step TableOk oneDisk.attached rescans := by
  have hquiet : Along step Quiet oneDisk.attached rescans := by
    refine along_cons.mpr ⟨trivial, along_cons.mpr ⟨?_, along_cons.mpr ⟨trivial, along_cons.mpr
      ⟨trivial, along_cons.mpr ⟨trivial, along_cons.mpr ⟨?_, along_nil⟩⟩⟩⟩⟩⟩
    · intro disk _ p hp d hd hpar
      obtain rfl : p = 0 := by
        have hp : p ∈ [0] := hp
        simpa using hp
      cases hd
      cases hpar
    · intro disk _ p hp d hd hpar
      have hp : p ∈ [0, 1] := hp
      rcases mem_pair.mp hp with rfl | rfl
      · cases hd
        cases hpar
      · refine ⟨fun fd hfd => ?_, nofun, rfl⟩
        rcases fd with _ | _ | fd
        · cases hfd
        · cases hfd
        · cases hfd
  exact ⟨hquiet, rescan_keeps_devices oneDisk rescans hquiet⟩

theorem not_along_of_freed {l : Disks} {as : List Act} {a : Act}
    (hp : p ∈ (exec step l.attached as).uses a) (hfree : (exec step l.attached as).heap p = none) :
    ¬ Along step (fun s a => ∀ p ∈ s.uses a, s.Live p) l.attached (as ++ [a]) := by
  intro h
  have hlive := h as a prefix_rfl p hp
  rw [Sys.Live, hfree] at hlive
  cases hlive

def openOver : List Act :=
  [.open 0 ['s', 'd', 'a'], .rescan 0 partitioned, .open 1 ['s', 'd', 'a', '1'],
    .rescan 0 partitioned]

def mountOver : List Act :=
  [.open 0 ['s', 'd', 'a'], .rescan 0 partitioned, .mount ['s', 'd', 'a', '1'] true,
    .rescan 0 partitioned]

def nodeOver : List Act :=
  [.open 0 ['s', 'd', 'a'], .rescan 0 partitioned, .rescan 0 refused,
    .open 1 ['s', 'd', 'a', '1']]

theorem rescan_frees_used :
    ¬ Along step (fun s a => ∀ p ∈ s.uses a, s.Live p) oneDisk.attached (openOver ++ [.io 1]) ∧
    ¬ Along step (fun s a => ∀ p ∈ s.uses a, s.Live p) oneDisk.attached (mountOver ++ [.fsIo]) ∧
    ¬ Along step (fun s a => ∀ p ∈ s.uses a, s.Live p) oneDisk.attached (nodeOver ++ [.io 1]) :=
  ⟨not_along_of_freed (p := 1) mem_cons_self rfl,
    not_along_of_freed (p := 1) mem_cons_self rfl,
    not_along_of_freed (p := 1) mem_cons_self rfl⟩

end Kyronix.Drivers.Rescan
