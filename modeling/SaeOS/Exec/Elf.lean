import SaeOS.Lib.Checked
import SaeOS.Libsaeos.Fs
import SaeOS.Mm.Vma

/-!
# ELF executables

`exec/elf.rs`: validation of a program file and the plan to load it. Numbers are 64-bit words; sums that
the source does not check, and its slices, are those of `Checked`, which panic where they do not fit.
-/

namespace SaeOS.Exec.Elf

open Checked
open Libsaeos (fromLeBytes)
open Vma (pageSize checkedAdd pageUp)

def ptLoad : ℕ := 1

def ptDynamic : ℕ := 2

def ptInterp : ℕ := 3

def ptPhdr : ℕ := 6

def etExec : ℕ := 2

def emX86_64 : ℕ := 62

def headerSize : ℕ := 64

def programHeaderSize : ℕ := 56

/-- Far more than any real static executable has. -/
def maxProgramHeaders : ℕ := 64

/-- `b"\x7fELF"`. -/
def magic : List UInt8 := [0x7f, 0x45, 0x4c, 0x46]

structure SegmentFlags where
  read : Bool
  write : Bool
  execute : Bool
  deriving DecidableEq, Repr

/-- The bits `PF_R`, `PF_W` and `PF_X`. -/
def SegmentFlags.ofBits (bits : ℕ) : SegmentFlags where
  read := bits.testBit 2
  write := bits.testBit 1
  execute := bits.testBit 0

/-- One `PT_LOAD` segment, rounded out to whole pages `start..stop` (`end` in the source). Its file bytes
`fileOffset..+fileSize` go at `vaddr`; the rest up to `vaddr + memSize` is zero. -/
structure Segment where
  start : ℕ
  stop : ℕ
  flags : SegmentFlags
  vaddr : ℕ
  fileOffset : ℕ
  fileSize : ℕ
  memSize : ℕ
  deriving DecidableEq, Repr

structure LoadPlan where
  entry : ℕ
  /-- Where the program headers are in the loaded image. -/
  phdrVaddr : ℕ
  phnum : ℕ
  segments : List Segment
  deriving DecidableEq, Repr

/-- What the loop over the program headers gathers. -/
structure Table where
  segments : List Segment
  phdrVaddr : Option ℕ

/-- A step of the loader: it may fail with an errno. -/
abbrev Load : Type → Type :=
  Checked Errno

/-- A little-endian number of the file. -/
def wordAt (width : ℕ) (file : List UInt8) (offset : ℕ) : Load ℕ := do
  let stop ← addWord offset width
  let bytes ← okOr .ENOEXEC (getRange file offset stop)
  return fromLeBytes bytes

def u16At (file : List UInt8) (offset : ℕ) : Load ℕ :=
  wordAt 2 file offset

def u32At (file : List UInt8) (offset : ℕ) : Load ℕ :=
  wordAt 4 file offset

def u64At (file : List UInt8) (offset : ℕ) : Load ℕ :=
  wordAt 8 file offset

/-- The segment of a `PT_LOAD` header that is not empty, behind the `segments` found before it. -/
def loadSegment (file : List UInt8) (userTop : ℕ) (segments : List Segment)
    (flags offset vaddr fileSize memSize : ℕ) : Load Segment := do
  let flags := SegmentFlags.ofBits flags
  let fileEnd ← okOr .ENOEXEC (checkedAdd offset fileSize)
  let memEnd ← okOr .ENOEXEC (checkedAdd vaddr memSize)
  rejectIf .ENOEXEC <|
    fileSize > memSize ∨ fileEnd > file.length ∨ vaddr % pageSize ≠ offset % pageSize ∨
      (flags.write && flags.execute) = true ∨ vaddr < pageSize
  let start := vaddr / pageSize * pageSize
  let stop ← okOr .ENOEXEC (pageUp memEnd)
  rejectIf .ENOEXEC <|
    stop > userTop ∨ segments.any (fun other => start < other.stop && other.start < stop) = true
  return ⟨start, stop, flags, vaddr, offset, fileSize, memSize⟩

/-- One round of the loop over the program headers. -/
def programHeader (file : List UInt8) (userTop tableStart : ℕ) (table : Table) (index : ℕ) :
    Load Table := do
  let base ← addWord tableStart (← mulWord index programHeaderSize)
  let kind ← u32At file base
  let flags ← u32At file (← addWord base 4)
  let offset ← u64At file (← addWord base 8)
  let vaddr ← u64At file (← addWord base 16)
  let fileSize ← u64At file (← addWord base 32)
  let memSize ← u64At file (← addWord base 40)
  if kind = ptInterp ∨ kind = ptDynamic then throw .ENOEXEC
  else if kind = ptPhdr then return { table with phdrVaddr := some vaddr }
  else if kind ≠ ptLoad ∨ memSize = 0 then return table
  else
    let segment ← loadSegment file userTop table.segments flags offset vaddr fileSize memSize
    return { table with segments := table.segments ++ [segment] }

/-- Whether an executable segment contains the address, for one segment. -/
def executableIn (address : ℕ) (segment : Segment) : Load Bool := do
  if segment.flags.execute && segment.vaddr ≤ address then
    let stop ← addWord segment.vaddr segment.memSize
    return address < stop
  else return false

/-- Whether a segment maps the file bytes of the program headers. -/
def mapsHeaders (phoff phnum : ℕ) (segment : Segment) : Load Bool := do
  if segment.fileOffset ≤ phoff then
    let tableEnd ← addWord phoff (← mulWord phnum programHeaderSize)
    let fileEnd ← addWord segment.fileOffset segment.fileSize
    return tableEnd ≤ fileEnd
  else return false

/-- Where the program headers are loaded: without `PT_PHDR`, in a segment that maps their file bytes. -/
def headersVaddr (phoff phnum : ℕ) (table : Table) : Load ℕ :=
  match table.phdrVaddr with
  | some vaddr => return vaddr
  | none => do
    match ← table.segments.findM? (mapsHeaders phoff phnum) with
    | some segment => addWord segment.vaddr (← subWord phoff segment.fileOffset)
    | none => return 0

/-- Validate `file` and describe how to load it below `userTop`. -/
def plan (file : List UInt8) (userTop : ℕ) : Load LoadPlan := do
  let header ← okOr .ENOEXEC (getRange file 0 headerSize)
  -- ELF magic, 64-bit, little-endian, version 1
  rejectIf .ENOEXEC <|
    (← slice header 0 4) ≠ magic ∨ (← index header 4) ≠ 2 ∨ (← index header 5) ≠ 1 ∨
      (← index header 6) ≠ 1
  rejectIf .ENOEXEC <|
    (← u16At file 16) ≠ etExec ∨ (← u16At file 18) ≠ emX86_64 ∨ (← u32At file 20) ≠ 1
  let entry ← u64At file 24
  let phoff ← u64At file 32
  let phentsize ← u16At file 54
  let phnum ← u16At file 56
  rejectIf .ENOEXEC (phentsize ≠ programHeaderSize ∨ phnum = 0 ∨ phnum > maxProgramHeaders)
  let tableEnd ← okOr .ENOEXEC (checkedAdd phoff (← mulWord phnum programHeaderSize))
  rejectIf .ENOEXEC (tableEnd > file.length)
  let table ← (List.range phnum).foldlM (programHeader file userTop phoff) ⟨[], none⟩
  rejectIf .ENOEXEC (table.segments.isEmpty = true)
  let executable ← table.segments.anyM (executableIn entry)
  rejectIf .ENOEXEC (executable = false)
  let phdrVaddr ← headersVaddr phoff phnum table
  return ⟨entry, phdrVaddr, phnum, table.segments⟩

/-- The bytes of page `page` of `segment` as loaded: file bytes where the segment has them, zero
elsewhere. -/
def pageContents (segment : Segment) (file : List UInt8) (page : ℕ) : Load (List UInt8) := do
  let out := List.replicate pageSize 0
  let dataEnd ← addWord segment.vaddr segment.fileSize
  let first := max page segment.vaddr
  let stop := min (← addWord page pageSize) dataEnd
  if first < stop then
    let source ← addWord segment.fileOffset (← subWord first segment.vaddr)
    let destination ← subWord first page
    let length ← subWord stop first
    copyInto out destination (← slice file source (← addWord source length))
  else return out

end SaeOS.Exec.Elf
