import Kyronix.Mm.VmaMap

/-! User address spaces (`vmm.c`, `pmm.c`, `mem.c`, the page fault of `idt.c`), all in one state.
Which frame an allocation gets, and whether a mapping gets the tables it needs, are inputs of each
call. -/
namespace Kyronix.Mm

open Lib Word Function

variable {n : ℕ}

def userLimit : UInt64 := 0x800000000000
def pageBytes : UInt64 := 4096
def protWrite : UInt64 := 2
def protExec : UInt64 := 4
def protAll : UInt64 := 7
def mapShared : UInt64 := 1
def mapPrivate : UInt64 := 2
def mapFixed : UInt64 := 0x10
def mapAnon : UInt64 := 0x20
def mremapMaymove : UInt64 := 1
def mremapFixed : UInt64 := 2
def vmaMapShared : UInt32 := 1
def pmmRefMaxFrames : ℕ := 2 ^ 22
def uint16Max : ℕ := 65535
def userStackTop : UInt64 := 0x7fffffff0000
def userStackGrowBase : UInt64 := 0x7ffff0000000

-- PAGE_ALIGN_DOWN and PAGE_ALIGN_UP: the mask clears the low twelve bits
def pageDown (x : UInt64) : UInt64 := x / pageBytes * pageBytes
def pageUp (x : UInt64) : UInt64 := pageDown (x + (pageBytes - 1))

-- the pages visited by `for (o = 0; o < len; o += PAGE_SIZE)` from `addr`
def pageRange (addr len : UInt64) : List UInt64 :=
  (List.range (len.toNat / 4096)).map fun i => addr + UInt64.ofNat (4096 * i)

def pagesBetween (lo hi : UInt64) : List UInt64 := if lo < hi then pageRange lo (hi - lo) else []

def VmaAttrs.shared (k : VmaAttrs) : Bool := k.mapFlags &&& vmaMapShared != 0

def vmaPageMapped (t : VmaTable n) (addr : UInt64) : Bool := (lookup t addr).isSome

def vmaPageOwned (t : VmaTable n) (addr : UInt64) : Bool :=
  (lookup t addr).any (·.freeOnUnmap)

def vmaRangeInfoFrom (t : VmaTable n) (k : VmaAttrs) (end_ cur : UInt64) : Bool :=
  if _h : cur < end_ then
    match _hv : containing t cur with
    | none => false
    | some v => if (t v).attrs ≠ k then false else vmaRangeInfoFrom t k end_ (cutEnd (t v) end_)
  else true
termination_by end_.toNat - cur.toNat
decreasing_by exact walk_decreases _h _hv

def vmaRangeInfo (t : VmaTable n) (start len : UInt64) : Option VmaAttrs :=
  match rangeEnd start len with
  | none => none
  | some end_ =>
    match lookup t start with
    | none => none
    | some k => if vmaRangeInfoFrom t k end_ start then some k else none

def hasProt (k : VmaAttrs) (bit : UInt64) : Bool := k.prot &&& bit.toUInt32 != 0

def vmaPageFaultAllowed (t : VmaTable n) (addr : UInt64) (write exec : Bool) : Bool :=
  match lookup t addr with
  | none => false
  | some k =>
    if !k.freeOnUnmap then false
    else if write && !hasProt k protWrite then false
    else if exec && !hasProt k protExec then false
    else hasProt k protAll

structure PteFlags where
  write : Bool
  user : Bool
  nx : Bool
  cow : Bool
deriving DecidableEq, Repr

def vmmUdata : PteFlags := ⟨true, true, true, false⟩

-- the page flags that `mmap`, `mprotect`, `mremap` and `vma_page_flags` make of a protection
def protFlags (write exec : Bool) : PteFlags := ⟨write, true, !exec, false⟩

def vmaPageFlags (t : VmaTable n) (addr : UInt64) : PteFlags :=
  match lookup t addr with
  | none => protFlags false false
  | some k => protFlags (hasProt k protWrite) (hasProt k protExec)

structure Pte where
  frame : ℕ
  flags : PteFlags
deriving DecidableEq, Repr

/-- The present leaf entries of the user half, and their addresses in the order of a walk. -/
structure PageTable where
  pte : UInt64 → Option Pte
  pages : List UInt64
  mem_pages : ∀ va, va ∈ pages ↔ (pte va).isSome

def PageTable.empty : PageTable := ⟨fun _ => none, [], by simp⟩

def PageTable.set (t : PageTable) (va : UInt64) (e : Pte) : PageTable where
  pte := update t.pte va (some e)
  pages := if va ∈ t.pages then t.pages else t.pages.orderedInsert (· ≤ ·) va
  mem_pages a := by
    by_cases ha : a = va
    · rw [ha, update_self]
      split
      · simpa
      · simp
    · rw [update_of_ne ha, ← t.mem_pages a]
      split
      · rfl
      · simp [ha]

def PageTable.clear (t : PageTable) (va : UInt64) : PageTable where
  pte := update t.pte va none
  pages := t.pages.filter (· ≠ va)
  mem_pages a := by
    by_cases ha : a = va
    · simp [ha]
    · simp [ha, t.mem_pages a]

structure Mem (n : ℕ) where
  refs : ℕ → ℕ
  used : ℕ → Bool
  page : ℕ → UInt64 → UInt8
  pt : ℕ → PageTable
  vmas : ℕ → VmaTable n
  brk : ℕ → UInt64
  brkBase : ℕ → UInt64
  mmapBump : ℕ → UInt64
  alive : ℕ → Bool
  -- the frames the next allocations get, and whether the next mappings get their tables
  supply : List ℕ
  tables : List Bool

def Mem.boot : Mem n where
  refs _ := 0
  used _ := false
  page _ _ := 0
  pt _ := PageTable.empty
  vmas _ := vmaReset
  brk _ := 0
  brkBase _ := 0
  mmapBump _ := 0
  alive _ := false
  supply := []
  tables := []

variable (s : Mem n) (p : ℕ)

-- an answer that is not a free frame stands for an allocation that fails
def pmmAlloc : Option ℕ × Mem n :=
  match s.supply with
  | [] => (none, s)
  | f :: rest =>
    if s.used f then (none, { s with supply := rest })
    else (some f, { s with
      supply := rest
      used := update s.used f true
      refs := if f < pmmRefMaxFrames then update s.refs f 1 else s.refs })

def Mem.fill (f : ℕ) (data : UInt64 → UInt8) : Mem n :=
  { s with page := update s.page f data }

def pmmAllocZeroed : Option ℕ × Mem n :=
  match pmmAlloc s with
  | (none, s) => (none, s)
  | (some f, s) => (some f, s.fill f fun _ => 0)

def pmmRetain (f : ℕ) : Bool × Mem n :=
  if f ≥ pmmRefMaxFrames then (false, s)
  else if s.refs f = 0 ∨ s.refs f = uint16Max then (false, s)
  else (true, { s with refs := update s.refs f (s.refs f + 1) })

def pmmRefCount (f : ℕ) : ℕ := if f < pmmRefMaxFrames then s.refs f else 0

-- a frame beyond the reference table goes back at once
def pmmFree (f : ℕ) : Mem n :=
  if f < pmmRefMaxFrames then
    if s.refs f = 0 then s
    else { s with
      refs := update s.refs f (s.refs f - 1)
      used := if s.refs f > 1 then s.used else update s.used f false }
  else { s with used := update s.used f false }

def Mem.setPte (va : UInt64) (e : Pte) : Mem n :=
  { s with pt := update s.pt p ((s.pt p).set va e) }

def vmmMap (va : UInt64) (f : ℕ) (flags : PteFlags) : Bool × Mem n :=
  if flags.user ∧ va ≥ userLimit then (false, s)
  else
    let got := s.tables.headD true
    let s := { s with tables := s.tables.tail }
    if !got then (false, s)
    else if ((s.pt p).pte va).isSome then (false, s)
    else (true, s.setPte p va ⟨f, flags⟩)

def vmmVirtToPhys (va : UInt64) : Option ℕ :=
  ((s.pt p).pte va).map Pte.frame

def vmmProtect (va : UInt64) (flags : PteFlags) : Bool × Mem n :=
  match (s.pt p).pte va with
  | none => (false, s)
  | some e => (true, s.setPte p va { e with flags := flags })

def vmmUnmap (va : UInt64) : Mem n :=
  { s with pt := update s.pt p ((s.pt p).clear va) }

-- `vmm_user_range_ok` for reading
def vmmUserRangeOk (addr len : UInt64) : Bool :=
  (pageRange addr len).all fun va => ((s.pt p).pte va).any fun e => e.flags.user

def vmmHandleCowFault (virt : UInt64) : ℤ × Mem n :=
  match (s.pt p).pte (pageDown virt) with
  | none => (0, s)
  | some e =>
    if !e.flags.cow then (0, s)
    else
      let flags := { e.flags with write := true, cow := false }
      if pmmRefCount s e.frame = 1 then
        match vmmProtect s p (pageDown virt) flags with
        | (ok, s) => (if ok then 1 else -1, s)
      else
        match pmmAlloc s with
        | (none, s) => (-1, s)
        | (some f, s) =>
          let s := s.fill f (s.page e.frame)
          let s := s.setPte p (pageDown virt) ⟨f, flags⟩
          (1, pmmFree s e.frame)

def forkCopy (dst : ℕ) (va : UInt64) (e : Pte) : Bool × Mem n :=
  match pmmAlloc s with
  | (none, s) => (false, s)
  | (some f, s) =>
    match vmmMap (s.fill f (s.page e.frame)) dst va f e.flags with
    | (false, s) => (false, pmmFree s f)
    | (true, s) => (true, s)

-- a private page is writable in neither space once it is shared
def forkFlags (e : Pte) (shared : Bool) : PteFlags :=
  if e.flags.write && !shared then { e.flags with write := false, cow := true } else e.flags

def forkShare (dst src : ℕ) (va : UInt64) (e : Pte) (shared : Bool) : Bool × Mem n :=
  match vmmMap s dst va e.frame (forkFlags e shared) with
  | (false, s) => (false, pmmFree s e.frame)
  | (true, s) =>
    (true, if e.flags.write && !shared then s.setPte src va ⟨e.frame, forkFlags e shared⟩ else s)

-- the body of the walk of `vmm_fork_user_cow`, for a present page
def forkPage (dst src : ℕ) (va : UInt64) (e : Pte) : Bool × Mem n :=
  let info := vmaRangeInfo (s.vmas src) va pageBytes
  match if info.any (·.freeOnUnmap) then pmmRetain s e.frame else (false, s) with
  | (false, s) => forkCopy s dst va e
  | (true, s) => forkShare s dst src va e (info.any (·.shared))

def forkEntry (dst src : ℕ) (va : UInt64) : Bool × Mem n :=
  match (s.pt src).pte va with
  | none => (true, s)
  | some e => forkPage s dst src va e

def forkPages (dst src : ℕ) : List UInt64 → Mem n → Bool × Mem n
  | [], s => (true, s)
  | va :: rest, s =>
    match forkEntry s dst src va with
    | (false, s) => (false, s)
    | (true, s) => forkPages dst src rest s

def vmmForkUserCow (dst src : ℕ) : Bool × Mem n :=
  let s := { s with vmas := update s.vmas dst (s.vmas src) }
  forkPages dst src (s.pt src).pages s

def vmmSpaceNew : Mem n :=
  { s with
    pt := update s.pt p PageTable.empty
    vmas := update s.vmas p vmaReset
    alive := update s.alive p true }

def freePage (s : Mem n) (va : UInt64) : Mem n :=
  match vmmVirtToPhys s p va with
  | none => s
  | some f => pmmFree (vmmUnmap s p va) f

def vmmSpaceFree : Mem n :=
  let s := (s.pt p).pages.foldl (freePage p) s
  { s with alive := update s.alive p false }

-- the memory part of `sys_fork_at_mode`
def sysFork (parent child : ℕ) : Mem n :=
  if s.alive child then s
  else
    match vmmForkUserCow (vmmSpaceNew s child) child parent with
    | (false, s) => vmmSpaceFree s child
    | (true, s) => { s with
        brk := update s.brk child (s.brk parent)
        brkBase := update s.brkBase child (s.brkBase parent)
        mmapBump := update s.mmapBump child (s.mmapBump parent) }

-- `near` says that the stack pointer is close enough for the stack to grow to the page
def handleUserPageFault (addr : UInt64) (write near : Bool) : Bool × Mem n :=
  match (s.pt p).pte (pageDown addr) with
  | some _ =>
    if !write then (false, s)
    else
      match vmmHandleCowFault s p addr with
      | (rc, s) => (decide (rc > 0), s)
  | none =>
    let page := pageDown addr
    let grows := near && decide (userStackGrowBase ≤ page) && decide (page < userStackTop)
    if grows || vmaPageFaultAllowed (s.vmas p) page write false then
      let flags := if grows then vmmUdata else vmaPageFlags (s.vmas p) page
      match pmmAllocZeroed s with
      | (none, s) => (false, s)
      | (some f, s) =>
        match vmmMap s p page f flags with
        | (false, s) => (false, pmmFree s f)
        | (true, s) => (true, s)
    else (false, s)

def userWritable (addr : UInt64) : Option ℕ :=
  match (s.pt p).pte (pageDown addr) with
  | some e => if e.flags.user && e.flags.write then some e.frame else none
  | none => none

def writeByte (addr : UInt64) (b : UInt8) : Mem n :=
  match userWritable s p addr with
  | some f => s.fill f (update (s.page f) (addr - pageDown addr) b)
  | none => s

-- a store that faults is retried once the fault is handled
def userStore (addr : UInt64) (b : UInt8) (near : Bool) : Mem n :=
  if (userWritable s p addr).isSome then writeByte s p addr b
  else
    match handleUserPageFault s p addr true near with
    | (false, s) => s
    | (true, s) => writeByte s p addr b

def userMapRangeOk (addr len : UInt64) : Bool :=
  if len = 0 ∨ addr % pageBytes ≠ 0 then false
  else if addr ≥ userLimit ∨ len > userLimit - addr then false
  else true

def lenMax : UInt64 := 0 - 1 - (pageBytes - 1)

def protValid (prot : UInt64) : Bool :=
  if prot &&& ~~~ protAll ≠ 0 then false
  else prot &&& (protWrite ||| protExec) != (protWrite ||| protExec)

def mmapFlagsValid (flags : UInt64) : Bool :=
  if flags &&& ~~~ (mapAnon ||| mapFixed ||| mapPrivate ||| mapShared) ≠ 0 then false
  else
    let kind := flags &&& (mapPrivate ||| mapShared)
    kind == mapPrivate || kind == mapShared

def flagsOfProt (prot : UInt64) : PteFlags :=
  protFlags (prot &&& protWrite != 0) (prot &&& protExec != 0)

def unmapOwnedPage (s : Mem n) (va : UInt64) : Mem n :=
  let tracked := vmaPageMapped (s.vmas p) va
  let owned := vmaPageOwned (s.vmas p) va
  let phys := vmmVirtToPhys s p va
  let s := if tracked then vmmUnmap s p va else s
  match phys with
  | some f => if owned then pmmFree s f else s
  | none => s

def unmapOwnedPages (addr len : UInt64) : Mem n :=
  (pageRange addr len).foldl (unmapOwnedPage p) s

def Mem.setVmas (r : ℤ × VmaTable n) : ℤ × Mem n :=
  (r.1, { s with vmas := update s.vmas p r.2 })

def rollbackNewMapping (addr mappedLen vmaLen : UInt64) : Mem n :=
  let s := if mappedLen ≠ 0 then unmapOwnedPages s p addr mappedLen else s
  (s.setVmas p (vmaRemove (s.vmas p) addr vmaLen)).2

-- the search for a range above `mmap_bump`
def pickFrom (t : VmaTable n) (length : UInt64) : (tries : ℕ) → UInt64 → Option UInt64
  | 0, _ => none
  | tries + 1, va =>
    if !userMapRangeOk va length then none
    else if !vmaConflicts t va length then some va
    else pickFrom t length tries (va + length)

def mmapPickAddr (addr length flags : UInt64) : Except ℤ (UInt64 × Mem n) :=
  if flags &&& mapFixed ≠ 0 ∧ addr ≠ 0 then
    let va := pageDown addr
    if !userMapRangeOk va length then .error (-einval)
    else if (pageRange va length).any fun page =>
        !vmaPageMapped (s.vmas p) page && (vmmVirtToPhys s p page).isSome then .error (-einval)
    else .ok (va, s)
  else
    match pickFrom (s.vmas p) length (n + 16) (pageUp (s.mmapBump p)) with
    | none => .error (-enomem)
    | some va => .ok (va, { s with mmapBump := update s.mmapBump p (va + length) })

def mmapFixedReplace (addr len flags : UInt64) : ℤ × Mem n :=
  if flags &&& mapFixed = 0 then (0, s)
  else
    let s := unmapOwnedPages s p addr len
    s.setVmas p (vmaRemoveOverlaps (s.vmas p) addr len)

-- the loops of `mmap` and `mremap` over the pages of a new mapping; a page starts with `data`
def mapPages (p : ℕ) (addr len : UInt64) (flags : PteFlags)
    (data : Mem n → UInt64 → UInt64 → UInt8) : List UInt64 → Mem n → ℤ × Mem n
  | [], s => (0, s)
  | va :: rest, s =>
    match pmmAllocZeroed s with
    | (none, s) => (-enomem, rollbackNewMapping s p addr (va - addr) len)
    | (some f, s) =>
      match vmmMap s p va f flags with
      | (false, s) => (-enomem, rollbackNewMapping (pmmFree s f) p addr (va - addr) len)
      | (true, s) => mapPages p addr len flags data rest (s.fill f (data s va))

-- an anonymous mapping, or one of a regular file whose bytes `file` gives by offset in the mapping
def sysMmap (addr length prot flags : UInt64) (file : UInt64 → UInt8) : ℤ × Mem n :=
  if length = 0 then (-einval, s)
  else if length > lenMax then (-einval, s)
  else
    let length := pageUp length
    if !protValid prot || !mmapFlagsValid flags then (-einval, s)
    else
      match mmapPickAddr s p addr length flags with
      | .error rc => (rc, s)
      | .ok (va, s) =>
        match mmapFixedReplace s p va length flags with
        | (rc, s) =>
          if rc < 0 then (rc, s)
          else
            match s.setVmas p (vmaAdd (s.vmas p) va length prot.toUInt32 flags.toUInt32 true) with
            | (rc, s) =>
              if rc < 0 then (rc, s)
              else if prot &&& protAll = 0 then (va.toNat, s)
              else
                match mapPages p va length (flagsOfProt prot)
                    (fun _ page off => file (page - va + off)) (pageRange va length) s with
                | (rc, s) => (if rc < 0 then rc else va.toNat, s)

def sysMunmap (addr len : UInt64) : ℤ × Mem n :=
  if addr % pageBytes ≠ 0 ∨ len = 0 then (-einval, s)
  else if len > lenMax then (-einval, s)
  else
    let len := pageUp len
    if !userMapRangeOk addr len then (-einval, s)
    else
      let s := unmapOwnedPages s p addr len
      (0, (s.setVmas p (vmaRemoveOverlaps (s.vmas p) addr len)).2)

-- the loop of `mprotect` over the pages of its range
def protectPages (p : ℕ) (tracked : Bool) (flags : PteFlags) : List UInt64 → Mem n → ℤ × Mem n
  | [], s => (0, s)
  | va :: rest, s =>
    if (vmmVirtToPhys s p va).isNone then
      if tracked then protectPages p tracked flags rest s else (-einval, s)
    else
      match vmmProtect s p va flags with
      | (false, s) => (-einval, s)
      | (true, s) => protectPages p tracked flags rest s

def sysMprotect (addr len prot : UInt64) : ℤ × Mem n :=
  if len = 0 then (0, s)
  else if addr % pageBytes ≠ 0 then (-einval, s)
  else if !protValid prot then (-einval, s)
  else if len > lenMax then (-einval, s)
  else
    let len := pageUp len
    if !userMapRangeOk addr len then (-einval, s)
    else
      let tracked := vmaRangeOk (s.vmas p) addr len
      if !tracked && !vmmUserRangeOk s p addr len then (-einval, s)
      else
        match if tracked then s.setVmas p (vmaProtect (s.vmas p) addr len prot.toUInt32)
            else (0, s) with
        | (rc, s) =>
          if rc < 0 then (rc, s)
          else protectPages p tracked (flagsOfProt prot) (pageRange addr len) s

-- what `mremap` copies into a new page: the old page at the same offset, where there is one
def oldPage (oldAddr oldSz newVa : UInt64) (s : Mem n) (va off : UInt64) : UInt8 :=
  if va - newVa < oldSz then
    match vmmVirtToPhys s p (oldAddr + (va - newVa)) with
    | some src => s.page src off
    | none => 0
  else 0

-- where a growing `mremap` puts the mapping
def mremapPickAddr (newSz flags newAddr : UInt64) : Except ℤ (UInt64 × Mem n) :=
  if flags &&& mremapFixed ≠ 0 then
    if !userMapRangeOk newAddr newSz || vmaConflicts (s.vmas p) newAddr newSz then .error (-einval)
    else .ok (newAddr, s)
  else mmapPickAddr s p 0 newSz 0

def mremapMove (oldAddr oldSz newSz : UInt64) (old : VmaAttrs) (newVa : UInt64) : ℤ × Mem n :=
  match s.setVmas p (vmaAdd (s.vmas p) newVa newSz old.prot old.mapFlags true) with
  | (rc, s) =>
    if rc < 0 then (rc, s)
    else
      match mapPages p newVa newSz (protFlags (hasProt old protWrite) (hasProt old protExec))
          (oldPage p oldAddr oldSz newVa) (pageRange newVa newSz) s with
      | (rc, s) =>
        if rc < 0 then (rc, s)
        else
          let s := unmapOwnedPages s p oldAddr oldSz
          match s.setVmas p (vmaRemove (s.vmas p) oldAddr oldSz) with
          | (rc, s) => (if rc < 0 then rc else newVa.toNat, s)

def sysMremap (oldAddr oldSz newSz flags newAddr : UInt64) : ℤ × Mem n :=
  if oldSz = 0 ∨ newSz = 0 then (-einval, s)
  else if flags &&& ~~~ (mremapMaymove ||| mremapFixed) ≠ 0 then (-einval, s)
  else if flags &&& mremapFixed ≠ 0 ∧ flags &&& mremapMaymove = 0 then (-einval, s)
  else if oldAddr % pageBytes ≠ 0 ∨ (flags &&& mremapFixed ≠ 0 ∧ newAddr % pageBytes ≠ 0) then
    (-einval, s)
  else if oldSz > lenMax ∨ newSz > lenMax then (-einval, s)
  else
    let oldSz := pageUp oldSz
    let newSz := pageUp newSz
    if !userMapRangeOk oldAddr oldSz then (-einval, s)
    else
      match vmaRangeInfo (s.vmas p) oldAddr oldSz with
      | none => (-einval, s)
      | some old =>
        if !old.freeOnUnmap then (-einval, s)
        else if newSz ≤ oldSz then
          let tail := oldSz - newSz
          if tail = 0 then (oldAddr.toNat, s)
          else
            let s := unmapOwnedPages s p (oldAddr + newSz) tail
            match s.setVmas p (vmaRemove (s.vmas p) (oldAddr + newSz) tail) with
            | (rc, s) => (if rc < 0 then rc else oldAddr.toNat, s)
        else if flags &&& mremapMaymove = 0 then (-enomem, s)
        else
          match mremapPickAddr s p newSz flags newAddr with
          | .error rc => (rc, s)
          | .ok (newVa, s) => mremapMove s p oldAddr oldSz newSz old newVa

-- `brk` takes the mappings of its old range away and adds its new range as one
def brkDrop (oldEnd : UInt64) : Mem n :=
  if oldEnd > s.brkBase p then
    (s.setVmas p (vmaRemoveOverlaps (s.vmas p) (s.brkBase p) (oldEnd - s.brkBase p))).2
  else s

def brkAdd (newEnd : UInt64) : Mem n :=
  (s.setVmas p (vmaAdd (s.vmas p) (s.brkBase p) (newEnd - s.brkBase p) 3 0 true)).2

-- the loop of a growing `brk`; a page that cannot be had takes back those before it
def brkPages (p : ℕ) (old : UInt64) : List UInt64 → Mem n → Bool × Mem n
  | [], s => (true, s)
  | va :: rest, s =>
    match pmmAllocZeroed s with
    | (none, s) => (false, (pagesBetween old va).foldl (freePage p) s)
    | (some f, s) =>
      match vmmMap s p va f vmmUdata with
      | (false, s) => (false, (pagesBetween old va).foldl (freePage p) (pmmFree s f))
      | (true, s) => brkPages p old rest s

def sysBrk (addr : UInt64) : ℤ × Mem n :=
  if addr = 0 then ((s.brk p).toNat, s)
  else if addr < s.brkBase p then ((s.brk p).toNat, s)
  else if addr ≥ userLimit ∨ addr > userLimit - (pageBytes - 1) then ((s.brk p).toNat, s)
  else if addr ≤ s.brk p then
    let newEnd := pageUp addr
    let oldEnd := pageUp (s.brk p)
    let s := (pagesBetween newEnd oldEnd).foldl (freePage p) s
    let s := brkDrop s p oldEnd
    let s := if newEnd > s.brkBase p then brkAdd s p newEnd else s
    (addr.toNat, { s with brk := update s.brk p addr })
  else
    let old := pageUp (s.brk p)
    let new := pageUp addr
    match brkPages p old (pagesBetween old new) s with
    | (false, s) => ((s.brk p).toNat, s)
    | (true, s) =>
      let s := brkAdd (brkDrop s p old) p new
      (addr.toNat, { s with brk := update s.brk p addr })

end Kyronix.Mm
