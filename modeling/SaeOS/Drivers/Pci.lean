import Mathlib.Algebra.GroupWithZero.Nat
import Mathlib.Data.Fintype.Basic
import SaeOS.Lib.Worklist

/-!
# PCI enumeration

`drivers/pci/config.rs`, `device.rs` and `scan.rs`: walking the PCI hierarchy through the configuration
registers of its functions. A register is a dword whose bits are read-only, plain, or cleared by writing one;
a narrower write reads and writes the dword around it.

Offsets of registers are byte offsets, and `history` keeps the registers as they were after each write. Bus,
device and function numbers are as narrow as the source's loops make them.
-/

namespace SaeOS.Pci

/-! ## Configuration space -/

/-! The numbers of a location start at 0, and a further host bridge has the number of its bus for its function. -/

scoped instance neZero_buses : NeZero 256 :=
  ⟨by decide⟩

scoped instance neZero_devices : NeZero 32 :=
  ⟨by decide⟩

scoped instance neZero_functions : NeZero 8 :=
  ⟨by decide⟩

theorem functions_le_buses : 8 ≤ 256 := by
  decide

/-- A function's location. -/
structure Address where
  bus : Fin 256
  device : Fin 32
  function : Fin 8
  deriving DecidableEq, Repr

namespace Address

/-- The order of the fields: bus, device, function. -/
def Before (a b : Address) : Prop :=
  a.bus < b.bus ∨ a.bus = b.bus ∧ (a.device < b.device ∨ a.device = b.device ∧ a.function < b.function)

instance (a b : Address) : Decidable (Before a b) := by
  unfold Before
  infer_instance

/-- Comparison of addresses. -/
def le (a b : Address) : Bool :=
  a = b ∨ a.Before b

end Address

/-- Which bits of a register take what is written, and which are cleared by a one. -/
structure Kind where
  writable : BitVec 32
  clearing : BitVec 32
  disjoint : writable &&& clearing = 0

/-- The register after a write. -/
def Kind.written (kind : Kind) (old value : BitVec 32) : BitVec 32 :=
  (old &&& ~~~kind.writable &&& ~~~(kind.clearing &&& value)) ||| (value &&& kind.writable)

/-- The contents of every register. -/
abbrev Registers : Type :=
  Address → ℕ → BitVec 32

/-- Another content of one register. -/
def Registers.set (r : Registers) (address : Address) (offset : ℕ) (value : BitVec 32) : Registers :=
  fun a o => if a = address ∧ o = offset then value else r a o

structure ConfigSpace where
  kinds : Address → ℕ → Kind
  registers : Registers
  history : List Registers := []

namespace ConfigSpace

def read32 (c : ConfigSpace) (address : Address) (offset : ℕ) : BitVec 32 :=
  c.registers address offset

def write32 (c : ConfigSpace) (address : Address) (offset : ℕ) (value : BitVec 32) : ConfigSpace :=
  let registers := c.registers.set address offset
    ((c.kinds address offset).written (c.registers address offset) value)
  { c with registers, history := c.history ++ [registers] }

def read16 (c : ConfigSpace) (address : Address) (offset : ℕ) : BitVec 16 :=
  (c.read32 address (offset / 4 * 4) >>> (offset / 2 % 2 * 16)).setWidth 16

def read8 (c : ConfigSpace) (address : Address) (offset : ℕ) : BitVec 8 :=
  (c.read32 address (offset / 4 * 4) >>> (offset % 4 * 8)).setWidth 8

/-- The other half of the dword is written back as it was read. -/
def write16 (c : ConfigSpace) (address : Address) (offset : ℕ) (value : BitVec 16) : ConfigSpace :=
  let aligned := offset / 4 * 4
  let shift := offset / 2 % 2 * 16
  let old := c.read32 address aligned
  c.write32 address aligned ((old &&& ~~~(0xffff#32 <<< shift)) ||| (value.setWidth 32 <<< shift))

end ConfigSpace

/-! ## Header offsets and bits -/

def vendorId : ℕ := 0x00
def deviceId : ℕ := 0x02
def command : ℕ := 0x04
def status : ℕ := 0x06
def revision : ℕ := 0x08
def progIf : ℕ := 0x09
def subclass : ℕ := 0x0a
def classCode : ℕ := 0x0b
def headerType : ℕ := 0x0e
def bar0 : ℕ := 0x10
def secondaryBus : ℕ := 0x19
def capabilitiesPointer : ℕ := 0x34
def interruptLine : ℕ := 0x3c
def interruptPin : ℕ := 0x3d

/-- `COMMAND_IO | COMMAND_MEMORY`. -/
def commandDecoding : BitVec 16 := 0x3

/-- `STATUS_CAPABILITIES`. -/
def statusCapabilities : BitVec 16 := 0x10

/-- `NO_DEVICE`: a vendor ID read from an empty slot. -/
def noDevice : BitVec 16 := 0xffff

/-- `HEADER_BRIDGE`. -/
def headerBridge : BitVec 8 := 1

/-! ## One function -/

inductive Bar
  | io (port : BitVec 16) (size : BitVec 32)
  | memory (address size : BitVec 64) (prefetchable wide : Bool)
  deriving DecidableEq, Repr

structure PciDevice where
  address : Address
  vendor : BitVec 16
  deviceId : BitVec 16
  classCode : BitVec 8
  subclass : BitVec 8
  progIf : BitVec 8
  revision : BitVec 8
  headerType : BitVec 8
  multifunction : Bool
  /-- Six entries, of which a bridge uses two. -/
  bars : List (Option Bar)
  interruptLine : BitVec 8
  interruptPin : BitVec 8
  /-- Capability ids with their offsets. -/
  capabilities : List (BitVec 8 × BitVec 8)
  deriving DecidableEq, Repr

def PciDevice.isBridge (device : PciDevice) : Bool :=
  device.headerType == headerBridge

/-- Write all ones, read back which bits stuck, restore: what the register held, what was read back. -/
def ConfigSpace.probe (c : ConfigSpace) (address : Address) (offset : ℕ) :
    BitVec 32 × BitVec 32 × ConfigSpace :=
  let original := c.read32 address offset
  let c := c.write32 address offset (BitVec.allOnes 32)
  let mask := c.read32 address offset
  (original, mask, c.write32 address offset original)

/-- An I/O BAR: bits 2.. hold the base. -/
def ioBar (original mask : BitVec 32) : Option Bar :=
  let mask := mask &&& ~~~0x3
  let size := (~~~mask + 1) &&& 0xffff
  if mask = 0 ∨ size = 0 then none
  else some (.io ((original &&& ~~~0x3).setWidth 16) size)

/-- A memory BAR of one slot. -/
def memoryBar (original mask : BitVec 32) : Option Bar :=
  let mask := mask &&& ~~~0xf
  if mask = 0 then none
  else some (.memory ((original &&& ~~~0xf).setWidth 64) ((~~~mask + 1).setWidth 64) (original &&& 0x8 != 0) false)

/-- A memory BAR of two slots. -/
def wideBar (original mask originalUpper maskUpper : BitVec 32) : Option Bar :=
  let mask : BitVec 64 := (maskUpper.setWidth 64 <<< 32) ||| (mask &&& ~~~0xf).setWidth 64
  if mask = 0 then none
  else
    some (.memory ((originalUpper.setWidth 64 <<< 32) ||| (original &&& ~~~0xf).setWidth 64) (~~~mask + 1)
      (original &&& 0x8 != 0) true)

/-- Size the BAR at `offset`, with decoding already off: the BAR and how many slots it used. -/
def sizeBar (c : ConfigSpace) (address : Address) (offset : ℕ) (lastSlot : Bool) :
    (Option Bar × ℕ) × ConfigSpace :=
  let (original, mask, c) := c.probe address offset
  if original &&& 1 == 1 then ((ioBar original mask, 1), c)
  else
    let wide := (original >>> 1) &&& 0x3 == 0x2
    if wide && !lastSlot then
      let (originalUpper, maskUpper, c) := c.probe address (offset + 4)
      ((wideBar original mask originalUpper maskUpper, 2), c)
    else ((memoryBar original mask, 1), c)

/-- The loop of `read_bars` from a slot on, in at most as many rounds as there are slots. -/
def readBarsFrom (address : Address) (count : ℕ) :
    ℕ → ℕ → List (Option Bar) → ConfigSpace → List (Option Bar) × ConfigSpace
  | 0, _, bars, c => (bars, c)
  | rounds + 1, slot, bars, c =>
    if slot < count then
      let ((bar, used), c) := sizeBar c address (bar0 + slot * 4) (slot + 1 == count)
      readBarsFrom address count rounds (slot + used) (bars.set slot bar) c
    else (bars, c)

/-- Every BAR of a function. Decoding is off while sizing and the command register is restored afterwards. -/
def readBars (c : ConfigSpace) (address : Address) (count : ℕ) : List (Option Bar) × ConfigSpace :=
  let original := c.read16 address command
  let c := c.write16 address command (original &&& ~~~commandDecoding)
  let (bars, c) := readBarsFrom address count count 0 (List.replicate 6 none) c
  (bars, c.write16 address command original)

/-- The loop of `read_capabilities`, for the rounds that are left. -/
def capabilitiesFrom (c : ConfigSpace) (address : Address) : ℕ → BitVec 8 → List (BitVec 8 × BitVec 8)
  | 0, _ => []
  | rounds + 1, offset =>
    if offset < 0x40 then []
    else
      (c.read8 address offset.toNat, offset) ::
        capabilitiesFrom c address rounds (c.read8 address (offset.toNat + 1) &&& ~~~0x3)

/-- The capabilities list, guarded against loops and bad offsets. -/
def readCapabilities (c : ConfigSpace) (address : Address) : List (BitVec 8 × BitVec 8) :=
  if c.read16 address status &&& statusCapabilities = 0 then []
  else capabilitiesFrom c address 48 (c.read8 address capabilitiesPointer &&& ~~~0x3)

/-- Six BARs for devices, two for bridges; of other layouts the identity only. -/
def barCount (header : BitVec 8) : ℕ :=
  if header = 0 then 6 else if header = headerBridge then 2 else 0

/-- The function at `address`, or `none` if the slot is empty. -/
def readDevice (c : ConfigSpace) (address : Address) : Option PciDevice × ConfigSpace :=
  let vendor := c.read16 address vendorId
  if vendor = noDevice then (none, c)
  else
    let header := c.read8 address headerType
    let headerType := header &&& 0x7f
    let deviceId := c.read16 address deviceId
    let classCode := c.read8 address classCode
    let subclass := c.read8 address subclass
    let progIf := c.read8 address progIf
    let revision := c.read8 address revision
    let (bars, c) := readBars c address (barCount headerType)
    (some {
      address, vendor, deviceId, classCode, subclass, progIf, revision, headerType
      multifunction := header &&& 0x80 != 0
      bars
      interruptLine := c.read8 address interruptLine
      interruptPin := c.read8 address interruptPin
      capabilities := readCapabilities c address }, c)

/-! ## The hierarchy -/

/-- Functions 1 to 7. -/
def laterFunctions : List (Fin 8) :=
  (List.finRange 8).tail

/-- Read several functions; those that exist. -/
def readFunctions (bus : Fin 256) (device : Fin 32) : List (Fin 8) → ConfigSpace → List PciDevice × ConfigSpace
  | [], c => ([], c)
  | function :: functions, c =>
    let (first, c) := readDevice c ⟨bus, device, function⟩
    let (rest, c) := readFunctions bus device functions c
    (first.toList ++ rest, c)

/-- The functions of one device: function 0 decides whether there are others. -/
def readDeviceFunctions (bus : Fin 256) (device : Fin 32) (c : ConfigSpace) : List PciDevice × ConfigSpace :=
  match readDevice c ⟨bus, device, 0⟩ with
  | (none, c) => ([], c)
  | (some first, c) =>
    let (rest, c) := readFunctions bus device (if first.multifunction then laterFunctions else []) c
    (first :: rest, c)

/-- The bus behind a PCI-to-PCI bridge, unless it is 0 or the bridge's own bus. -/
def busBehind (c : ConfigSpace) (bus : Fin 256) (function : PciDevice) : Option (Fin 256) :=
  if function.isBridge ∧ function.classCode = 0x06 ∧ function.subclass = 0x04 then
    let secondary := (c.read8 function.address secondaryBus).toFin
    if secondary ≠ 0 ∧ secondary ≠ bus then some secondary else none
  else none

/-- One device of a bus: the buses to push, the last one in front, and the devices so far with its functions. -/
def scanDevice (bus : Fin 256) (acc : List (Fin 256) × List PciDevice × ConfigSpace) (device : Fin 32) :
    List (Fin 256) × List PciDevice × ConfigSpace :=
  let (found, c) := readDeviceFunctions bus device acc.2.2
  ((found.filterMap (busBehind c bus)).reverse ++ acc.1, acc.2.1 ++ found, c)

/-- One bus. -/
def scanBus (bus : Fin 256) (s : List PciDevice × ConfigSpace) :
    List (Fin 256) × List PciDevice × ConfigSpace :=
  (List.finRange 32).foldl (scanDevice bus) ([], s)

/-- The buses of further host controllers: 00:00.f is the host bridge for bus f. -/
def hostBuses : List (Fin 8) → ConfigSpace → List (Fin 256) × ConfigSpace
  | [], c => ([], c)
  | function :: functions, c =>
    let (host, c) := readDevice c ⟨0, 0, function⟩
    let (rest, c) := hostBuses functions c
    (if host.isSome then function.castLE functions_le_buses :: rest else rest, c)

/-- The buses that are pending at first, the last one in front. -/
def rootBuses (c : ConfigSpace) : List (Fin 256) × ConfigSpace :=
  match readDevice c ⟨0, 0, 0⟩ with
  | (none, c) => ([0], c)
  | (some host, c) =>
    let (buses, c) := hostBuses (if host.multifunction then laterFunctions else []) c
    (buses.reverse ++ [0], c)

/-- Every function on every reachable bus. -/
def scan (c : ConfigSpace) : List PciDevice × ConfigSpace :=
  let (pending, c) := rootBuses c
  let (devices, c) := Worklist.run scanBus ∅ pending ([], c)
  (devices.mergeSort fun a b => Address.le a.address b.address, c)

end SaeOS.Pci
