import Kyronix.Lib.Links

/-! The kernel heap (`heap.c`). Headers are kept field by field, as maps from the address of a
block; 0 is the null pointer. Whether the pages a growth asks for are there is an input. -/
namespace Kyronix.Mm

open Lib.Links Function

def hdrSize : ℕ := 48
def minSplit : ℕ := hdrSize + 16
def pageSize : ℕ := 4096
def growBytes : ℕ := 16 * pageSize
def heapStart : ℕ := 0xffff910000000000
def heapMax : ℕ := 0xffff920000000000
def heapCapacity : ℕ := heapMax - heapStart
def heapBinCount : ℕ := 32
def smallClassCount : ℕ := 16
def smallCacheLimit : ℕ := 32
def uint64Max : ℕ := 2 ^ 64 - 1
def maxCpus : ℕ := 16

abbrev Cpu := Fin maxCpus

structure BlockList where
  prev : ℕ → ℕ
  next : ℕ → ℕ
  head : ℕ
  tail : ℕ

structure FreeBins where
  freePrev : ℕ → ℕ
  freeNext : ℕ → ℕ
  heads : ℕ → ℕ

/-- `g_small_cache`, by CPU and size class; the `next` word is in the payload of a cached block. -/
structure SmallCaches where
  head : Cpu × ℕ → ℕ
  count : Cpu × ℕ → ℕ
  itemNext : ℕ → ℕ

structure Heap where
  size : ℕ → ℕ
  free : ℕ → ℕ
  list : BlockList
  bins : FreeBins
  cache : SmallCaches
  brk : ℕ
  kmallocTotal : UInt64
  kfreeTotal : UInt64

def Heap.empty : Heap where
  size _ := 0
  free _ := 0
  list := ⟨fun _ => 0, fun _ => 0, 0, 0⟩
  bins := ⟨fun _ => 0, fun _ => 0, fun _ => 0⟩
  cache := ⟨fun _ => 0, fun _ => 0, fun _ => 0⟩
  brk := heapStart
  kmallocTotal := 0
  kfreeTotal := 0

-- the loop of `bin_for_size`, which ends in the last bin
def binFrom (units bin : ℕ) : ℕ :=
  if units > 1 ∧ bin + 1 < heapBinCount then binFrom ((units + 1) / 2) (bin + 1) else bin
termination_by heapBinCount - bin

def binForSize (size : ℕ) : ℕ := binFrom ((size + 15) / 16) 0

def FreeBins.remove (f : FreeBins) (bin blk : ℕ) : FreeBins :=
  let f := if f.freePrev blk ≠ 0 then
      { f with freeNext := update f.freeNext (f.freePrev blk) (f.freeNext blk) }
    else { f with heads := update f.heads bin (f.freeNext blk) }
  let f := if f.freeNext blk ≠ 0 then
      { f with freePrev := update f.freePrev (f.freeNext blk) (f.freePrev blk) }
    else f
  { f with freePrev := update f.freePrev blk 0
           freeNext := update f.freeNext blk 0 }

def FreeBins.insert (f : FreeBins) (bin blk : ℕ) : FreeBins :=
  let f := { f with freePrev := update f.freePrev blk 0
                    freeNext := update f.freeNext blk (f.heads bin) }
  let f := if f.freeNext blk ≠ 0 then
      { f with freePrev := update f.freePrev (f.freeNext blk) blk }
    else f
  { f with heads := update f.heads bin blk }

variable (s : Heap)

def freeRemove (blk : ℕ) : Heap :=
  { s with bins := s.bins.remove (binForSize (s.size blk)) blk }

def freeInsert (blk : ℕ) : Heap :=
  { s with bins := s.bins.insert (binForSize (s.size blk)) blk }

-- the inner loop of `find_fit`; a bin has fewer blocks than the heap has bytes
def fitInBin (s : Heap) (size : ℕ) : (fuel blk : ℕ) → Option ℕ
  | 0, _ => none
  | fuel + 1, blk =>
    if blk = 0 then none
    else if s.size blk ≥ size then some blk
    else fitInBin s size fuel (s.bins.freeNext blk)

def findFit (size : ℕ) : Option ℕ :=
  ((List.range heapBinCount).drop (binForSize size)).findSome? fun bin =>
    fitInBin s size s.brk (s.bins.heads bin)

def BlockList.start (l : BlockList) (blk : ℕ) : BlockList where
  prev := update l.prev blk 0
  next := update l.next blk 0
  head := blk
  tail := blk

def BlockList.append (l : BlockList) (blk : ℕ) : BlockList where
  prev := update l.prev blk l.tail
  next := update (update l.next blk 0) l.tail blk
  head := l.head
  tail := blk

-- the stores of `kmalloc` that put the split-off `tail` behind `blk`
def BlockList.insertAfter (l : BlockList) (blk tail : ℕ) : BlockList where
  prev := setAt 0 (update l.prev tail blk) (l.next blk) tail
  next := update (update l.next tail (l.next blk)) blk tail
  head := l.head
  tail := if l.tail = blk then tail else l.tail

-- the stores of `kfree` that take `blk` out behind `prev`, on either side of the freed block
def BlockList.absorb (l : BlockList) (prev blk : ℕ) : BlockList where
  prev := setAt 0 l.prev (l.next blk) prev
  next := update l.next prev (l.next blk)
  head := l.head
  tail := if l.tail = blk then prev else l.tail

def heapGrow (minPayload : ℕ) (pages : Bool) : Option (ℕ × Heap) :=
  if minPayload > heapCapacity - hdrSize then none
  else
    let need := minPayload + hdrSize
    let need := if need < growBytes then growBytes else need
    if need > uint64Max - (pageSize - 1) then none
    else
      let need := (need + (pageSize - 1)) / pageSize * pageSize
      if s.brk > heapMax ∨ need > heapMax - s.brk then none
      else if !pages then none
      else
        let blk := s.brk
        let s := { s with brk := s.brk + need }
        if s.list.head ≠ 0 ∧ s.free s.list.tail = 1 then
          let tail := s.list.tail
          let s := freeRemove s tail
          let s := { s with size := update s.size tail (s.size tail + need) }
          some (tail, freeInsert s tail)
        else
          let s := { s with
            size := update s.size blk (need - hdrSize)
            free := update s.free blk 1
            list := if s.list.head ≠ 0 then s.list.append blk else s.list.start blk
            bins := { s.bins with freePrev := update s.bins.freePrev blk 0
                                  freeNext := update s.bins.freeNext blk 0 } }
          some (blk, freeInsert s blk)

def heapInit (pages : Bool) : Heap :=
  match heapGrow Heap.empty 0 pages with
  | none => Heap.empty
  | some (_, s) => s

def SmallCaches.pop (c : SmallCaches) (k : Cpu × ℕ) : SmallCaches :=
  { c with
    head := update c.head k (c.itemNext (c.head k))
    count := update c.count k (c.count k - 1) }

def SmallCaches.push (c : SmallCaches) (k : Cpu × ℕ) (item : ℕ) : SmallCaches where
  itemNext := update c.itemNext item (c.head k)
  head := update c.head k item
  count := update c.count k (c.count k + 1)

def splitBlock (blk size : ℕ) : Heap :=
  let tail := blk + hdrSize + size
  freeInsert { s with
    size := update (update s.size tail (s.size blk - size - hdrSize)) blk size
    free := update s.free tail 1
    list := s.list.insertAfter blk tail
    bins := { s.bins with freePrev := update s.bins.freePrev tail 0
                          freeNext := update s.bins.freeNext tail 0 } } tail

-- `kmalloc` once it has found the free block it takes
def takeBlock (blk size : ℕ) : ℕ × Heap :=
  let s := freeRemove s blk
  let s := if s.size blk ≥ size + minSplit then splitBlock s blk size else s
  (blk + hdrSize, { s with
    free := update s.free blk 0
    bins := { s.bins with freePrev := update s.bins.freePrev blk 0
                          freeNext := update s.bins.freeNext blk 0 }
    kmallocTotal := s.kmallocTotal + UInt64.ofNat (s.size blk) })

def roundUp (size : ℕ) : ℕ := (size + 15) / 16 * 16

def smallClass (size : ℕ) : ℕ := size / 16 - 1

def tooLarge (size : ℕ) : Prop := size > heapCapacity ∨ size > uint64Max - 15

instance (size : ℕ) : Decidable (tooLarge size) := inferInstanceAs (Decidable (_ ∨ _))

def kmalloc (cpu : Cpu) (size : ℕ) (pages : Bool) : ℕ × Heap :=
  if size = 0 then (0, s)
  else if tooLarge size then (0, s)
  else
    let size := roundUp size
    let item := s.cache.head (cpu, smallClass size)
    if size ≤ smallClassCount * 16 ∧ item ≠ 0 then
      (item, { s with
        cache := s.cache.pop (cpu, smallClass size)
        free := update s.free (item - hdrSize) 0
        kmallocTotal := s.kmallocTotal + UInt64.ofNat size })
    else
      match findFit s size with
      | some blk => takeBlock s blk size
      | none =>
        match heapGrow s size pages with
        | none => (0, s)
        | some (blk, s) => takeBlock s blk size

def coalesceNext (blk : ℕ) : Heap :=
  let next := s.list.next blk
  if next ≠ 0 ∧ s.free next = 1 then
    let s := freeRemove s next
    { s with
      size := update s.size blk (s.size blk + (hdrSize + s.size next))
      list := s.list.absorb blk next }
  else s

def coalescePrev (blk : ℕ) : ℕ × Heap :=
  let prev := s.list.prev blk
  if prev ≠ 0 ∧ s.free prev = 1 then
    let s := freeRemove s prev
    (prev, { s with
      size := update s.size prev (s.size prev + (hdrSize + s.size blk))
      list := s.list.absorb prev blk })
  else (blk, s)

def releaseBlock (blk : ℕ) : Heap :=
  let s := { s with kfreeTotal := s.kfreeTotal + UInt64.ofNat (s.size blk) }
  let (blk, s) := coalescePrev (coalesceNext s blk) blk
  freeInsert { s with free := update s.free blk 1 } blk

-- a block that is not in state 0 is left alone: the compare-and-swap to state 2 fails
def kfree (cpu : Cpu) (ptr : ℕ) : Heap :=
  if ptr = 0 then s
  else
    let blk := ptr - hdrSize
    if s.free blk ≠ 0 then s
    else
      let s := { s with free := update s.free blk 2 }
      let cls := smallClass (s.size blk)
      if s.size blk ≠ 0 ∧ s.size blk ≤ smallClassCount * 16 ∧ s.size blk % 16 = 0 ∧
          s.cache.count (cpu, cls) < smallCacheLimit then
        { s with
          cache := s.cache.push (cpu, cls) ptr
          free := update s.free blk 3
          kfreeTotal := s.kfreeTotal + UInt64.ofNat (s.size blk) }
      else releaseBlock s blk

def kcalloc (cpu : Cpu) (nmemb size : ℕ) (pages : Bool) : ℕ × Heap :=
  if size ≠ 0 ∧ nmemb > uint64Max / size then (0, s) else kmalloc s cpu (nmemb * size) pages

def krealloc (cpu : Cpu) (ptr newSize : ℕ) (pages : Bool) : ℕ × Heap :=
  if ptr = 0 then kmalloc s cpu newSize pages
  else if newSize = 0 then (0, kfree s cpu ptr)
  else if tooLarge newSize then (0, s)
  else if s.size (ptr - hdrSize) ≥ roundUp newSize then (ptr, s)
  else
    match kmalloc s cpu newSize pages with
    | (newPtr, s) => if newPtr = 0 then (0, s) else (newPtr, kfree s cpu ptr)

-- the 64-bit difference, read as a signed number
def heapAllocDelta : ℤ := (s.kmallocTotal - s.kfreeTotal).toBitVec.toInt

end Kyronix.Mm
