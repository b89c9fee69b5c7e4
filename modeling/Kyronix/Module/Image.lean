import Kyronix.Errno

/-! Module images, from `loader.c`: the bytes of an ELF object, and the checks that look at nothing
else. Errors are positive error numbers. -/
namespace Kyronix.Module

def moduleNameMax : ℕ := 63
def moduleLicenseMax : ℕ := 31
def moduleImageMax : ℕ := 16 * 1024 * 1024
def pageSize : ℕ := 4096

def shtSymtab : ℕ := 2
def shtStrtab : ℕ := 3
def shtRela : ℕ := 4
def shtNobits : ℕ := 8
def shtRel : ℕ := 9
def shtDynsym : ℕ := 11

def shfWrite : ℕ := 0x1
def shfAlloc : ℕ := 0x2
def shfExecinstr : ℕ := 0x4
def shfTls : ℕ := 0x400

def shnUndef : ℕ := 0
def shnAbs : ℕ := 0xfff1
def shnCommon : ℕ := 0xfff2

def stbGlobal : ℕ := 1
def stbWeak : ℕ := 2

/-- What lies past `size` is there for the loader to read too. -/
structure Image where
  size : ℕ
  byte : ℕ → UInt8

-- a text without its terminating zero
abbrev CStr := List UInt8

def cstr (s : String) : CStr := s.toList.map fun c => UInt8.ofNat c.toNat

namespace Image

-- an unsigned number of `n` bytes, the low byte first
def number (img : Image) (off : ℕ) : (n : ℕ) → ℕ
  | 0 => 0
  | n + 1 => (img.byte off).toNat + 256 * img.number (off + 1) n

def signed (img : Image) (off : ℕ) : ℤ :=
  let v := img.number off 8
  if v < 2 ^ 63 then v else v - 2 ^ 64

end Image

structure Ehdr where
  eIdent : List UInt8
  eType : ℕ
  eMachine : ℕ
  eVersion : ℕ
  eShoff : ℕ
  eEhsize : ℕ
  eShentsize : ℕ
  eShnum : ℕ
  eShstrndx : ℕ

structure Shdr where
  shName : ℕ
  shType : ℕ
  shFlags : ℕ
  shOffset : ℕ
  shSize : ℕ
  shLink : ℕ
  shInfo : ℕ
  shAddralign : ℕ
  shEntsize : ℕ

structure Sym where
  stName : ℕ
  stInfo : ℕ
  stShndx : ℕ
  stValue : ℕ

structure Rela where
  rOffset : ℕ
  rInfo : ℕ
  rAddend : ℤ

def ehdrSize : ℕ := 64
def shdrSize : ℕ := 64
def symSize : ℕ := 24
def relaSize : ℕ := 24

namespace Image

variable (img : Image)

def ehdr : Ehdr where
  eIdent := (List.range 16).map img.byte
  eType := img.number 16 2
  eMachine := img.number 18 2
  eVersion := img.number 20 4
  eShoff := img.number 40 8
  eEhsize := img.number 52 2
  eShentsize := img.number 58 2
  eShnum := img.number 60 2
  eShstrndx := img.number 62 2

def shdr (off : ℕ) : Shdr where
  shName := img.number off 4
  shType := img.number (off + 4) 4
  shFlags := img.number (off + 8) 8
  shOffset := img.number (off + 24) 8
  shSize := img.number (off + 32) 8
  shLink := img.number (off + 40) 4
  shInfo := img.number (off + 44) 4
  shAddralign := img.number (off + 48) 8
  shEntsize := img.number (off + 56) 8

def sym (off : ℕ) : Sym where
  stName := img.number off 4
  stInfo := img.number (off + 4) 1
  stShndx := img.number (off + 6) 2
  stValue := img.number (off + 8) 8

def rela (off : ℕ) : Rela where
  rOffset := img.number off 8
  rInfo := img.number (off + 8) 8
  rAddend := img.signed (off + 16)

-- `section_at` where the index is known to be in range
def shdrOf (index : ℕ) : Shdr :=
  img.shdr (img.ehdr.eShoff + index * img.ehdr.eShentsize)

def sectionAt (index : ℕ) : Option Shdr :=
  if index ≥ img.ehdr.eShnum then none else some (img.shdrOf index)

def indices : List ℕ := List.range img.ehdr.eShnum

end Image

def rangeOk (off len total : ℕ) : Bool := off ≤ total && len ≤ total - off

def pageAlignUp (x : ℕ) : ℕ := (x + pageSize - 1) / pageSize * pageSize

-- the text at `off`, if it ends within `remain` bytes
def strnlen (img : Image) (off : ℕ) : (remain : ℕ) → Option CStr
  | 0 => none
  | n + 1 =>
    if img.byte off = 0 then some [] else (strnlen img (off + 1) n).map (img.byte off :: ·)

variable (img : Image) (secAddr : ℕ → ℕ)

def tableString (strtab : Option Shdr) (offset : ℕ) : Option CStr :=
  match strtab with
  | none => none
  | some st =>
    if st.shType ≠ shtStrtab ∨ offset ≥ st.shSize then none
    else if !rangeOk st.shOffset st.shSize img.size then none
    else strnlen img (st.shOffset + offset) (st.shSize - offset)

def sectionName (sh : Shdr) : Option CStr :=
  if img.ehdr.eShstrndx ≥ img.ehdr.eShnum then none
  else tableString img (img.sectionAt img.ehdr.eShstrndx) sh.shName

def nameChar (byte : UInt8) : Bool :=
  let c := Char.ofNat byte.toNat
  ('a' ≤ c && c ≤ 'z') || ('A' ≤ c && c ≤ 'Z') || ('0' ≤ c && c ≤ '9') || c == '_' || c == '-'

def moduleNameValid (name : CStr) : Bool :=
  name ≠ [] && name.length ≤ moduleNameMax && name.all nameChar

-- each round passes an item and its zero, so `size` rounds are enough
def copyModinfoValue (img : Image) (data size outSize : ℕ) (key : CStr) :
    (rounds off : ℕ) → Except ℤ (Option CStr)
  | 0, _ => .ok none
  | rounds + 1, off =>
    if off ≥ size then .ok none
    else
      match strnlen img (data + off) (size - off) with
      | none => .error enoexec
      | some item =>
        if item.length > key.length ∧ key <+: item then
          let value := item.drop key.length
          if value.length ≥ outSize then .error einval else .ok (some value)
        else copyModinfoValue img data size outSize key rounds (off + item.length + 1)

def modinfoValue (sh : Shdr) (outSize : ℕ) (key : String) : Except ℤ (Option CStr) :=
  copyModinfoValue img sh.shOffset sh.shSize outSize (cstr key) sh.shSize 0

def kernelVersion : CStr := cstr "0.3"

def parseModinfo : Except ℤ (CStr × CStr) :=
  match img.indices.find? fun i => sectionName img (img.shdrOf i) = some (cstr ".modinfo") with
  | none => .error enoexec
  | some i => do
    let sh := img.shdrOf i
    if !rangeOk sh.shOffset sh.shSize img.size then throw enoexec
    let some name ← modinfoValue img sh (moduleNameMax + 1) "name=" | throw enoexec
    let license ← modinfoValue img sh (moduleLicenseMax + 1) "license="
    let vermagic ← modinfoValue img sh 64 "vermagic="
    if vermagic ≠ none ∧ vermagic ≠ some kernelVersion then throw enoexec
    if !moduleNameValid name then throw einval
    return (name, license.getD (cstr "unspecified"))

def validateElf : Except ℤ Unit := do
  let eh := img.ehdr
  if img.size < ehdrSize then throw enoexec
  if eh.eIdent.take 6 ≠ [0x7f, 0x45, 0x4c, 0x46, 2, 1] ∨ eh.eType ≠ 1 ∨ eh.eMachine ≠ 62 ∨
      eh.eVersion ≠ 1 ∨ eh.eEhsize < ehdrSize ∨ eh.eShentsize < shdrSize ∨ eh.eShnum = 0 then
    throw enoexec
  if !rangeOk eh.eShoff (eh.eShnum * eh.eShentsize) img.size then throw enoexec
  if eh.eShstrndx ≥ eh.eShnum then throw enoexec

def has (flags bit : ℕ) : Bool := flags &&& bit ≠ 0

-- where each section goes, from the start of the image, and the first byte past the last
structure Layout where
  secAddr : ℕ → ℕ
  cursor : ℕ

def placeSection (l : Layout) (i : ℕ) : Except ℤ Layout := do
  let sh := img.shdrOf i
  if !has sh.shFlags shfAlloc then return l
  if has sh.shFlags shfTls then throw enotsup
  if has sh.shFlags shfWrite ∧ has sh.shFlags shfExecinstr then throw enoexec
  if sh.shType ≠ shtNobits ∧ !rangeOk sh.shOffset sh.shSize img.size then throw enoexec
  let align := if sh.shAddralign = 0 then 1 else sh.shAddralign
  if align &&& (align - 1) ≠ 0 ∨ align > pageSize then throw enoexec
  let cursor := pageAlignUp l.cursor
  if sh.shSize > moduleImageMax ∨ cursor > moduleImageMax - sh.shSize then throw efbig
  return { secAddr := Function.update l.secAddr i cursor, cursor := cursor + sh.shSize }

/-- The places of the sections and the size of the whole; `room` is the memory for the table of
places. -/
def prepareLayout (room : Bool) : Except ℤ (Layout × ℕ) := do
  if !room then throw enomem
  let l ← img.indices.foldlM (placeSection img) ⟨fun _ => 0, 0⟩
  let size := pageAlignUp l.cursor
  if size = 0 ∨ size > moduleImageMax then throw efbig
  return (l, size)

-- the places become addresses
def copySections (base : ℕ) (l : Layout) : ℕ → ℕ := fun i =>
  if i < img.ehdr.eShnum ∧ has (img.shdrOf i).shFlags shfAlloc then l.secAddr i + base
  else l.secAddr i

-- the offsets that the walk over a symbol table visits; they wrap around at `2 ^ 64`
def symOffsets (size entsize : ℕ) : (rounds off : ℕ) → List ℕ
  | 0, _ => []
  | rounds + 1, off =>
    if (off + symSize) % 2 ^ 64 ≤ size then
      off :: symOffsets size entsize rounds ((off + entsize) % 2 ^ 64)
    else []

def tableSymbols (symtab : Shdr) : List Sym :=
  (symOffsets symtab.shSize symtab.shEntsize (2 ^ 64) 0).map fun off =>
    img.sym ((symtab.shOffset + off) % 2 ^ 64)

def isSymtab (symtab : Shdr) : Bool :=
  symtab.shType == shtSymtab && symtab.shEntsize ≥ symSize && symtab.shLink < img.ehdr.eShnum

def symName (symtab : Shdr) (sym : Sym) : Option CStr :=
  tableString img (img.sectionAt symtab.shLink) sym.stName

def exportableSymbol (sym : Sym) (name : Option CStr) : Bool :=
  let bind := sym.stInfo / 16
  if bind ≠ stbGlobal ∧ bind ≠ stbWeak then false
  else
    match name with
    | none => false
    | some name =>
      if name = [] ∨ name = cstr "init_module" ∨ name = cstr "cleanup_module" then false
      else if sym.stShndx = shnAbs then true
      else if sym.stShndx ≥ img.ehdr.eShnum ∨ secAddr sym.stShndx = 0 then false
      else sym.stValue ≤ (img.shdrOf sym.stShndx).shSize

structure Export where
  name : CStr
  addr : ℕ
deriving DecidableEq

def symtabs : List Shdr := (img.indices.map img.shdrOf).filter (isSymtab img)

def tableExports (symtab : Shdr) : List Export :=
  (tableSymbols img symtab).filterMap fun sym =>
    if exportableSymbol img secAddr sym (symName img symtab sym) then
      (symName img symtab sym).map fun name =>
        ⟨name, if sym.stShndx = shnAbs then sym.stValue else secAddr sym.stShndx + sym.stValue⟩
    else none

def imageExports : Except ℤ (List Export) :=
  if (symtabs img).any fun symtab => !rangeOk symtab.shOffset symtab.shSize img.size then
    .error enoexec
  else .ok ((symtabs img).flatMap (tableExports img secAddr))

def findEntry (wanted : CStr) : Except ℤ (Option ℕ) :=
  let tables := (symtabs img).filter fun st => rangeOk st.shOffset st.shSize img.size
  let found := tables.flatMap fun st =>
    (tableSymbols img st).filter fun sym => symName img st sym = some wanted
  match found with
  | [] => .ok none
  | sym :: _ =>
    if sym.stShndx = shnUndef ∨ sym.stShndx ≥ img.ehdr.eShnum ∨ secAddr sym.stShndx = 0 then
      .error enoexec
    else if sym.stValue > (img.shdrOf sym.stShndx).shSize then .error enoexec
    else .ok (some (secAddr sym.stShndx + sym.stValue))

def applyOneRelocation (type symbol : ℕ) (addend : ℤ) (place : ℕ) : Except ℤ (Option ℕ) :=
  match type with
  | 0 => .ok none
  | 1 => .ok (some ((symbol + addend) % 2 ^ 64).toNat)
  | 2 | 4 =>
    let value := symbol + addend - place
    if value < -2 ^ 31 ∨ value > 2 ^ 31 - 1 then .error eoverflow
    else .ok (some (value % 2 ^ 32).toNat)
  | 10 =>
    let value := symbol + addend
    if value < 0 ∨ value > 2 ^ 32 - 1 then .error eoverflow else .ok (some value.toNat)
  | 11 =>
    let truncated := ((symbol + addend) % 2 ^ 64).toNat
    let low := truncated % 2 ^ 32
    if (if low < 2 ^ 31 then low else low + (2 ^ 64 - 2 ^ 32)) ≠ truncated then .error eoverflow
    else .ok (some low)
  | 24 => .ok (some ((symbol + addend - place) % 2 ^ 64).toNat)
  | _ => .error enotsup

def relocWidth (type : ℕ) : ℕ := if type = 0 then 0 else if type = 1 ∨ type = 24 then 8 else 4

end Kyronix.Module
