import Kyronix.Module.Image

/-! The module table of `loader.c`: loading an image, with every way it can fail, and unloading.
Memory that may run out and what the code of a module returns are inputs. -/
namespace Kyronix.Module

def moduleMax : ℕ := 32
def moduleMaxDeps : ℕ := 32
def moduleRegionStart : ℕ := 0xffffffffc0000000
def moduleRegionEnd : ℕ := 0xffffffffe0000000

inductive ModuleState where
  | empty
  | loading
  | live
  | unloading
deriving DecidableEq

abbrev Slot := Fin moduleMax

structure Word where
  place : ℕ
  value : ℕ
  source : Option (Slot × ℕ)

structure LoadedModule where
  state : ModuleState := .empty
  name : CStr := []
  base : ℕ := 0
  size : ℕ := 0
  exports : List Export := []
  -- the first `dep_count` entries of `deps`
  deps : List Slot := []
  users : ℕ := 0
  -- the words written by relocations, and the number of the load, kept for the statements
  words : List Word := []
  load : ℕ := 0

structure Modules where
  slot : Slot → LoadedModule
  loads : ℕ

variable (s : Modules)

def Modules.set (k : Slot) (m : LoadedModule) : Modules :=
  { s with slot := Function.update s.slot k m }

def Modules.boot : Modules := ⟨fun _ => {}, 0⟩

def slots : List Slot := List.finRange moduleMax

def rangesOverlap (a asz b bsz : ℕ) : Bool := a < b + bsz && b < a + asz

def blocker (candidate size : ℕ) : Option Slot :=
  slots.find? fun i => (s.slot i).state ≠ .empty &&
    rangesOverlap candidate size (s.slot i).base (s.slot i).size

-- the modules that end above the candidate
def above (candidate : ℕ) : Finset Slot :=
  Finset.univ.filter fun i => candidate < (s.slot i).base + (s.slot i).size

theorem le_pageAlignUp (x : ℕ) : x ≤ pageAlignUp x := by
  unfold pageAlignUp pageSize
  omega

theorem above_blocker {s : Modules} {candidate size : ℕ} {i : Slot}
    (h : blocker s candidate size = some i) :
    above s (pageAlignUp ((s.slot i).base + (s.slot i).size)) ⊂ above s candidate := by
  have hover := List.find?_some h
  rw [rangesOverlap, Bool.and_eq_true, Bool.and_eq_true, decide_eq_true_eq, decide_eq_true_eq]
    at hover
  have hlt := hover.2.1
  have hup := le_pageAlignUp ((s.slot i).base + (s.slot i).size)
  refine Finset.ssubset_iff_subset_ne.mpr ⟨?_, ?_⟩
  · intro j hj
    rw [above, Finset.mem_filter] at hj ⊢
    exact ⟨hj.1, (hlt.trans_le hup).trans hj.2⟩
  · intro heq
    have hi : i ∈ above s candidate := Finset.mem_filter.mpr ⟨Finset.mem_univ i, hlt⟩
    rw [← heq, above, Finset.mem_filter] at hi
    exact absurd hi.2 (not_lt.mpr hup)

/-- The loop of `find_module_base`: past each module in the way. -/
def findCandidate (s : Modules) (size candidate : ℕ) : ℕ :=
  match _h : blocker s candidate size with
  | none => candidate
  | some i => findCandidate s size (pageAlignUp ((s.slot i).base + (s.slot i).size))
termination_by (above s candidate).card
decreasing_by exact Finset.card_lt_card (above_blocker _h)

def findModuleBase (size : ℕ) : ℕ :=
  let candidate := findCandidate s size moduleRegionStart
  if candidate > moduleRegionEnd ∨ size > moduleRegionEnd - candidate then 0 else candidate

def reserveModule (name : CStr) (size : ℕ) : Except ℤ (Slot × Modules) :=
  if slots.any fun i => (s.slot i).state ≠ .empty && (s.slot i).name == name then .error eexist
  else
    match slots.find? fun i => (s.slot i).state = .empty with
    | none => .error enomem
    | some k =>
      let base := findModuleBase s size
      if base = 0 then .error enomem
      else
        let m := { state := .loading, name := name, base := base, size := size, load := s.loads }
        .ok (k, { s.set k m with loads := s.loads + 1 })

def Modules.depend (consumer provider : Slot) : Modules :=
  let c := s.slot consumer
  let s := s.set consumer { c with deps := c.deps ++ [provider] }
  s.set provider { s.slot provider with users := (s.slot provider).users + 1 }

def addDependency (consumer provider : Slot) : Except ℤ Unit × Modules :=
  if provider ∈ (s.slot consumer).deps then (.ok (), s)
  else if (s.slot consumer).deps.length ≥ moduleMaxDeps then (.error efbig, s)
  else (.ok (), s.depend consumer provider)

-- the first live module that offers the symbol
def findExport (name : CStr) : Option (Slot × ℕ) :=
  slots.findSome? fun i =>
    if (s.slot i).state ≠ .live then none
    else ((s.slot i).exports.find? fun e => e.name = name).map fun e => (i, e.addr)

section

-- the symbols of the kernel, 0 where there is none
variable (kallsyms : CStr → ℕ)

def loadedSymbol (s : Modules) (k : Slot) (name : CStr) :
    Except ℤ (ℕ × Option (Slot × ℕ)) × Modules :=
  if kallsyms name ≠ 0 then (.ok (kallsyms name, none), s)
  else
    match findExport s name with
    | none => (.ok (0, none), s)
    | some (i, addr) =>
      match addDependency s k i with
      | (.error e, s) => (.error e, s)
      | (.ok (), s) => (.ok (addr, some (i, (s.slot i).load)), s)

variable (env : Env) (img : Image) (secAddr : ℕ → ℕ)

def symbolValue (s : Modules) (k : Slot) (symtab : Shdr)
    (index : ℕ) : Except ℤ (ℕ × Option (Slot × ℕ)) × Modules :=
  if symtab.shEntsize < symSize ∨ index ≥ symtab.shSize / symtab.shEntsize then (.error enoexec, s)
  else
    let sym := img.sym (symtab.shOffset + index * symtab.shEntsize)
    if sym.stShndx = shnUndef then
      match symName img symtab sym with
      | none => (.error enoexec, s)
      | some name =>
        match loadedSymbol kallsyms s k name with
        | (.error e, s) => (.error e, s)
        | (.ok (addr, source), s) =>
          if addr = 0 ∧ sym.stInfo / 16 ≠ stbWeak then (.error enoexec, s)
          else (.ok (addr, source), s)
    else if sym.stShndx = shnAbs then (.ok (sym.stValue, none), s)
    else if sym.stShndx = shnCommon ∨ sym.stShndx ≥ img.ehdr.eShnum ∨
        secAddr sym.stShndx = 0 then
      (.error enoexec, s)
    else if sym.stValue > (img.shdrOf sym.stShndx).shSize then (.error enoexec, s)
    else (.ok (secAddr sym.stShndx + sym.stValue, none), s)

def writeWord (s : Modules) (k : Slot) (w : Word) : Modules :=
  s.set k { s.slot k with words := (s.slot k).words ++ [w] }

def applyRelocation (k : Slot) (rela symtab : Shdr) (r : Rela)
    (s : Modules) : Except ℤ Unit × Modules :=
  let target := img.shdrOf rela.shInfo
  let type := r.rInfo % 2 ^ 32
  if r.rOffset > target.shSize ∨ relocWidth type > target.shSize - r.rOffset then
    (.error enoexec, s)
  else
    match symbolValue kallsyms img secAddr s k symtab (r.rInfo / 2 ^ 32) with
    | (.error e, s) => (.error e, s)
    | (.ok (symbol, source), s) =>
      let place := secAddr rela.shInfo + r.rOffset
      match applyOneRelocation type symbol r.rAddend place with
      | .error e => (.error e, s)
      | .ok none => (.ok (), s)
      | .ok (some value) => (.ok (), writeWord s k ⟨place, value, source⟩)

-- a loop that stops at the first failure
def untilError {α : Type*} (f : α → Modules → Except ℤ Unit × Modules) :
    List α → Modules → Except ℤ Unit × Modules
  | [], s => (.ok (), s)
  | a :: as, s =>
    match f a s with
    | (.error e, s) => (.error e, s)
    | (.ok (), s) => untilError f as s

def relaEntries (rela : Shdr) : List Rela :=
  (List.range (rela.shSize / rela.shEntsize)).map fun j =>
    img.rela (rela.shOffset + j * rela.shEntsize)

def applySection (k : Slot) (i : ℕ) (s : Modules) : Except ℤ Unit × Modules :=
  let rela := img.shdrOf i
  let shnum := img.ehdr.eShnum
  if rela.shType = shtRel ∧ rela.shInfo < shnum ∧
      has (img.shdrOf rela.shInfo).shFlags shfAlloc then
    (.error enotsup, s)
  else if rela.shType ≠ shtRela then (.ok (), s)
  else if rela.shInfo ≥ shnum ∨ rela.shLink ≥ shnum ∨ rela.shEntsize < relaSize ∨
      rela.shSize % rela.shEntsize ≠ 0 ∨ !rangeOk rela.shOffset rela.shSize img.size then
    (.error enoexec, s)
  else if !has (img.shdrOf rela.shInfo).shFlags shfAlloc then (.ok (), s)
  else
    let symtab := img.shdrOf rela.shLink
    if (symtab.shType ≠ shtSymtab ∧ symtab.shType ≠ shtDynsym) ∨ symtab.shLink ≥ shnum ∨
        !rangeOk symtab.shOffset symtab.shSize img.size then
      (.error enoexec, s)
    else untilError (applyRelocation kallsyms img secAddr k rela symtab) (relaEntries img rela) s

def applyRelocations (k : Slot) (s : Modules) : Except ℤ Unit × Modules :=
  untilError (applySection kallsyms img secAddr k) img.indices s

/-- What the kernel and the module itself answer while an image is loaded. -/
structure Env where
  layoutRoom : Bool
  pagesRoom : Bool
  exportsRoom : Bool
  protectOk : Bool
  initResult : ℤ

-- whether a symbol of this name is there already
def offered (s : Modules) (name : CStr) : Bool :=
  kallsyms name ≠ 0 || slots.any fun i =>
    (s.slot i).state = .live && (s.slot i).exports.any fun e => e.name = name

def buildExports (k : Slot) (s : Modules) : Except ℤ Unit × Modules :=
  match imageExports img secAddr with
  | .error e => (.error e, s)
  | .ok [] => (.ok (), s)
  | .ok exports =>
    if !env.exportsRoom then (.error enomem, s)
    else if exports.any fun e => offered kallsyms s e.name then (.error eexist, s)
    else (.ok (), s.set k { s.slot k with exports := exports })

-- from the entry points to the end of the module's own `init_module`
def startModule : Except ℤ Unit := do
  let some _ ← findEntry img secAddr (cstr "init_module") | throw enoexec
  let _ ← findEntry img secAddr (cstr "cleanup_module")
  if !env.protectOk then throw eio
  if env.initResult ≠ 0 then
    throw (if env.initResult < 0 then -env.initResult else einval)

def loadInto (l : Layout) (k : Slot) (s : Modules) : Except ℤ Unit × Modules :=
  if !env.pagesRoom then (.error enomem, s)
  else
    let secAddr := copySections img (s.slot k).base l
    match applyRelocations kallsyms img secAddr k s with
    | (.error e, s) => (.error e, s)
    | (.ok (), s) =>
      match buildExports kallsyms env img secAddr k s with
      | (.error e, s) => (.error e, s)
      | (.ok (), s) => (startModule env img secAddr, s)

def releaseUser (s : Modules) (p : Slot) : Modules :=
  if (s.slot p).users = 0 then s
  else s.set p { s.slot p with users := (s.slot p).users - 1 }

def releaseDependencies (s : Modules) (k : Slot) : Modules :=
  let s := (s.slot k).deps.foldl releaseUser s
  s.set k { s.slot k with deps := [] }

def abandonModule (s : Modules) (k : Slot) : Modules := (releaseDependencies s k).set k {}

def moduleLoadImage (s : Modules) : ℤ × Modules :=
  match validateElf img with
  | .error e => (-e, s)
  | .ok () =>
    match parseModinfo img with
    | .error e => (-e, s)
    | .ok (name, _) =>
      match prepareLayout img env.layoutRoom with
      | .error e => (-e, s)
      | .ok (l, size) =>
        match reserveModule s name size with
        | .error e => (-e, s)
        | .ok (k, s) =>
          match loadInto kallsyms env img l k s with
          | (.error e, s) => (-e, abandonModule s k)
          | (.ok (), s) => (0, s.set k { s.slot k with state := .live })

/-- The arguments of a load: from memory, or from a file whose size was looked at before. -/
structure LoadArgs where
  hostPriv : Bool
  -- a failure while the parameters, the file or the bytes are fetched
  fetched : Except ℤ Image
  env : Env

def sysInitModule (args : LoadArgs) (s : Modules) : ℤ × Modules :=
  if !args.hostPriv then (-eperm, s)
  else
    match args.fetched with
    | .error e => (-e, s)
    | .ok img =>
      if img.size = 0 then (-enoexec, s)
      else if img.size > moduleImageMax then (-efbig, s)
      else moduleLoadImage kallsyms args.env img s

end

structure DeleteArgs where
  hostPriv : Bool
  flags : ℕ
  -- the name, if it can be read
  userName : Option CStr

def copyUserModuleName (user : Option CStr) : Except ℤ CStr :=
  match user with
  | none => .error efault
  | some name =>
    if name.length > moduleNameMax then .error enametoolong
    else if moduleNameValid name then .ok name
    else .error einval

def sysDeleteModule (args : DeleteArgs) (s : Modules) : ℤ × Modules :=
  if !args.hostPriv then (-eperm, s)
  else if args.flags ≠ 0 then (-einval, s)
  else
    match copyUserModuleName args.userName with
    | .error e => (-e, s)
    | .ok name =>
      match slots.find? fun i => (s.slot i).state = .live && (s.slot i).name == name with
      | none => (-enoent, s)
      | some k =>
        if (s.slot k).users ≠ 0 then (-ebusy, s)
        else
          -- the module's own `exit` runs here
          let s := s.set k { s.slot k with state := .unloading }
          (0, (releaseDependencies s k).set k {})

inductive ModuleCall where
  | load (args : LoadArgs)
  | delete (args : DeleteArgs)

def moduleStep (kallsyms : CStr → ℕ) (s : Modules) : ModuleCall → Modules
  | .load args => (sysInitModule kallsyms args s).2
  | .delete args => (sysDeleteModule args s).2

end Kyronix.Module
