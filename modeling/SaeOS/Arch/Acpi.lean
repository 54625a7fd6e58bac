import SaeOS.Lib.Footprint
import SaeOS.Mm.DirectMap

/-!
# ACPI tables

`arch/x86_64/acpi.rs` with paging active: from the root pointer over the root table to the MADT, and its I/O APIC
entries and interrupt overrides. The tables are read through the direct map, of which `mapped_address` maps the
page that a table starts in.

Addresses are physical; a pointer is never null. `memory` is what a read of the direct map gives. The arrays of a
topology are the lists of their first entries, as many as its counts say.
-/

namespace SaeOS.Acpi

open Reading DirectMap

/-- `RSD PTR `. -/
def rsdpSignature : List UInt8 := [0x52, 0x53, 0x44, 0x20, 0x50, 0x54, 0x52, 0x20]

/-- `XSDT` and `RSDT`. -/
def rootSignature (extended : Bool) : List UInt8 :=
  if extended then [0x58, 0x53, 0x44, 0x54] else [0x52, 0x53, 0x44, 0x54]

/-- `APIC`. -/
def madtSignature : List UInt8 := [0x41, 0x50, 0x49, 0x43]

def maxIoapics : ℕ := 8
def maxOverrides : ℕ := 16

structure IoApicInfo where
  id : UInt8
  address : ℕ
  gsiBase : ℕ
  deriving DecidableEq, Repr

structure InterruptOverride where
  sourceIrq : UInt8
  gsi : ℕ
  flags : ℕ
  deriving DecidableEq, Repr

structure InterruptTopology where
  lapicAddress : ℕ := 0
  ioapics : List IoApicInfo := []
  overrides : List InterruptOverride := []
  deriving DecidableEq, Repr

inductive AcpiError
  | invalidRsdp | invalidRootTable | noMadt | invalidMadt | tooManyEntries
  deriving DecidableEq, Repr

variable (memory : ℕ → UInt8)

/-! ## Reading -/

/-- `read_u16`, `read_u32` and `read_u64` at a computed address, which must not overflow. -/
def readNumber (bytes address : ℕ) : Reading ℕ :=
  if window ≤ address then panics else number memory address bytes

def readU16 (address : ℕ) : Reading ℕ := readNumber memory 2 address
def readU32 (address : ℕ) : Reading ℕ := readNumber memory 4 address
def readU64 (address : ℕ) : Reading ℕ := readNumber memory 8 address

def checksumOk (address length : ℕ) : Reading Bool := do
  let total ← sum memory address length 0
  return total = 0

def signatureEquals (address : ℕ) (signature : List UInt8) : Reading Bool :=
  startsWith memory address signature

/-- `mapped_address`: the page of the address is mapped, if it can be. -/
def mappedAddress (s : KernelMap) (address : ℕ) : Except ReadStop KernelMap :=
  if window ≤ address then .error .panicked else .ok (s.mapPage address)

def rsdpValid (address : ℕ) : Reading Bool := do
  if !(← signatureEquals memory address rsdpSignature) then return false
  if !(← checksumOk memory address 20) then return false
  let revision ← load memory (address + 15)
  if 2 ≤ revision then
    let length ← readU32 memory (address + 20)
    if 36 ≤ length then checksumOk memory address length else return false
  else return true

/-- The root table, and whether it is the extended one. -/
def rootTable (rsdp : ℕ) : Reading (ℕ × Bool) := do
  let revision ← load memory (rsdp + 15)
  let extended ← if 2 ≤ revision then (do return (← readU64 memory (rsdp + 24)) != 0) else pure false
  if extended then return (← readU64 memory (rsdp + 24), true)
  else return (← readU32 memory (rsdp + 16), false)

/-- What a table turns out to be. -/
inductive TableCheck
  | foreign
  | invalid
  | valid (length : ℕ)
  deriving DecidableEq, Repr

/-- A table's signature, its length and its checksum. -/
def checkTable (address : ℕ) (signature : List UInt8) (shortest : ℕ) : Reading TableCheck := do
  if !(← signatureEquals memory address signature) then return .foreign
  let length ← readU32 memory (address + 4)
  if length < shortest then return .invalid
  if !(← checksumOk memory address length) then return .invalid
  return .valid length

/-- Bytes of an entry of the root table. -/
def entrySize (extended : Bool) : ℕ :=
  if extended then 8 else 4

/-- One entry of the root table. -/
def entryPointer (root : ℕ) (extended : Bool) (index : ℕ) : Reading ℕ :=
  if extended then readU64 memory (root + 36 + index * 8) else readU32 memory (root + 36 + index * 4)

/-! ## The MADT -/

def readIoapic (entry : ℕ) : Reading IoApicInfo := do
  let id ← load memory (entry + 2)
  let address ← readU32 memory (entry + 4)
  let gsiBase ← readU32 memory (entry + 8)
  return { id, address, gsiBase }

def readOverride (entry : ℕ) : Reading InterruptOverride := do
  let sourceIrq ← load memory (entry + 3)
  let gsi ← readU32 memory (entry + 4)
  let flags ← readU16 memory (entry + 8)
  return { sourceIrq, gsi, flags }

/-- One entry of the MADT: full-length I/O APICs and overrides of bus 0 are kept. -/
def addEntry (entry : ℕ) (entryType : UInt8) (entryLength : ℕ) (topology : InterruptTopology) :
    Reading (Except AcpiError InterruptTopology) := do
  if entryType = 1 ∧ 12 ≤ entryLength then
    if topology.ioapics.length = maxIoapics then return .error .tooManyEntries
    let ioapic ← readIoapic memory entry
    return .ok { topology with ioapics := topology.ioapics ++ [ioapic] }
  else if entryType = 2 ∧ 10 ≤ entryLength then
    let bus ← load memory (entry + 2)
    if bus = 0 then
      if topology.overrides.length = maxOverrides then return .error .tooManyEntries
      let override ← readOverride memory entry
      return .ok { topology with overrides := topology.overrides ++ [override] }
    else return .ok topology
  else return .ok topology

/-- The loop of `parse_madt`, and what follows it. -/
def madtFrom (address length offset : ℕ) (topology : InterruptTopology) :
    Reading (Except AcpiError InterruptTopology) :=
  if offset + 2 ≤ length then
    load memory (address + offset) >>= fun entryType =>
    load memory (address + offset + 1) >>= fun entryLength =>
    if entryLength.toNat < 2 ∨ length < offset + entryLength.toNat then return .error .invalidMadt
    else
      addEntry memory (address + offset) entryType entryLength.toNat topology >>= fun added =>
      match added with
      | .error error => return .error error
      | .ok topology => madtFrom address length (offset + entryLength.toNat) topology
  else if topology.lapicAddress = 0 ∨ topology.ioapics = [] then return .error .invalidMadt
  else return .ok topology
termination_by length - offset
decreasing_by omega

def parseMadt (address length : ℕ) : Reading (Except AcpiError InterruptTopology) := do
  let lapicAddress ← readU32 memory (address + 36)
  madtFrom memory address length 44 { lapicAddress }

/-! ## The root pointer -/

/-- The walk over the root table, up to the first MADT. -/
def walkRoot (root : ℕ) (extended : Bool) :
    KernelMap → List ℕ → Except ReadStop (Except AcpiError InterruptTopology)
  | _, [] => .ok (.error .noMadt)
  | s, index :: rest => do
    let entry ← entryPointer memory root extended index s.isMapped
    let s ← mappedAddress s entry
    match ← checkTable memory entry madtSignature 44 s.isMapped with
    | .foreign => walkRoot root extended s rest
    | .invalid => return .error .invalidMadt
    | .valid length => parseMadt memory entry length s.isMapped

def parseRsdp (s : KernelMap) (address : ℕ) : Except ReadStop (Except AcpiError InterruptTopology) := do
  let s ← mappedAddress s address
  if !(← rsdpValid memory address s.isMapped) then return .error .invalidRsdp
  let (root, extended) ← rootTable memory address s.isMapped
  let s ← mappedAddress s root
  match ← checkTable memory root (rootSignature extended) 36 s.isMapped with
  | .valid length => walkRoot memory root extended s (List.range ((length - 36) / entrySize extended))
  | _ => return .error .invalidRootTable

end SaeOS.Acpi
