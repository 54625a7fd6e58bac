import SaeOS.Mm.KernelEntry

/-!
# The kernel page tables

`map_page_locked`, `map_leaf`, `map_range`, `map_mmio`, `unmap_page` and the walk of `mm/paging.rs`
over the memory that the tables lie in. A table that is missing on the way to a page is created, and
a huge leaf on the way is split into a table of pieces that map what it mapped.

Addresses are natural numbers, entries are words. The frames that the frame allocator will hand out
are a list; a panic is `none`. Flushing the TLB has no counterpart.
-/

namespace SaeOS.KernelTables

open TableTree

/-- `KERNEL_VIRT_BASE`. -/
def kernelVirtBase : ℕ := 0xffff800000000000

/-- `DIRECT_MAP_LIMIT` and `IDENTITY_MAP_LIMIT`. -/
def mapLimit : ℕ := 2 ^ 47

/-- `KERNEL_PML4_FIRST`. -/
def kernelPml4First : ℕ := 256

/-- Bits of a leaf around its address, which make it present. -/
structure PageFlags where
  bits : Word
  address_eq : bits &&& physMask4K = 0#64
  present_eq : has bits present = true

namespace PageFlags

/-- `KERNEL_TEXT`. -/
def kernelText : PageFlags :=
  ⟨present, by decide, by decide⟩

/-- `WRITABLE`. -/
def writable : PageFlags :=
  ⟨present ||| KernelTables.writable ||| noExecute, by decide, by decide⟩

/-- `MMIO`. -/
def mmio : PageFlags :=
  ⟨present ||| KernelTables.writable ||| noExecute ||| pcd ||| pwt, by decide, by decide⟩

end PageFlags

/-- The `&'static str` errors. -/
inductive MapError
  | unaligned
  | nonCanonical
  | lowerHalf
  | outOfFrames
  | alreadyMapped
  | rangeLimit
  | overflow
  | invalidAddress
  | notMapped
  deriving DecidableEq, Repr

/-- `Overwrite`. -/
inductive Overwrite
  | reject
  | replace
  deriving DecidableEq, Repr

/-- `PhysicalMemoryKind`. -/
inductive PhysicalMemoryKind
  | reserved
  | usable
  | acpiReclaimable
  | acpiNvs
  | runtime
  | mmio
  deriving DecidableEq, Repr

/-- `table_indices`: the index of an address at each depth. -/
def index (virtualAddress d : ℕ) : ℕ :=
  virtualAddress / 2 ^ (39 - 9 * d) % 512

/-- `is_canonical`. -/
def isCanonical (virtualAddress : ℕ) : Bool :=
  virtualAddress < 2 ^ 47 || virtualAddress ≥ kernelVirtBase

structure Machine where
  mem : Word → ℕ → Word
  /-- `page_table_frame`. -/
  root : Word
  /-- What `alloc_frame` will return. -/
  free : List Word
  /-- `KERNEL_SLOTS_FROZEN`. -/
  frozen : Bool
  /-- `LOWER_HALF_DROPPED`. -/
  lowerHalfDropped : Bool

namespace Machine

/-- Store an entry. -/
def write (s : Machine) (table : Word) (i : ℕ) (entry : Word) : Machine :=
  { s with mem := store s.mem table i entry }

/-- Fill a frame. -/
def fill (s : Machine) (frame : Word) (entries : ℕ → Word) : Machine :=
  { s with mem := Function.update s.mem frame entries }

/-- `alloc_table`: a frame of zeros. -/
def allocTable (s : Machine) : Option Word × Machine :=
  match s.free with
  | [] => (none, s)
  | frame :: free => (some frame, { s with free }.fill frame fun _ => 0#64)

/-- `child`; `none` is exhaustion. -/
def child (s : Machine) (table : Word) (i : ℕ) : Option Word × Machine :=
  if has (s.mem table i) present then (some (s.mem table i &&& physMask4K), s)
  else
    match s.allocTable with
    | (none, s) => (none, s)
    | (some frame, s) =>
      let s := s.write table i (frame ||| present ||| writable)
      (some (s.mem table i &&& physMask4K), s)

/-- Replace a huge leaf by a table of its pieces. `false` is exhaustion. -/
def splitLeaf (s : Machine) (table : Word) (i : ℕ) (pieces : Word → ℕ → Word) : Bool × Machine :=
  let old := s.mem table i
  if has old huge then
    match s.allocTable with
    | (none, s) => (false, s)
    | (some frame, s) =>
      (true, (s.fill frame (pieces old)).write table i (frame ||| present ||| writable))
  else (true, s)

/-- What `map_page_locked` does at the PDPT and at the page directory. -/
def below (s : Machine) (table : Word) (i : ℕ) (pieces : Word → ℕ → Word) : Option Word × Machine :=
  match s.splitLeaf table i pieces with
  | (false, s) => (none, s)
  | (true, s) => s.child table i

/-- The end of `map_page_locked`, in the page table. -/
def setPage (s : Machine) (table : Word) (i : ℕ) (entry : Word) (mode : Overwrite) :
    Except MapError Unit × Machine :=
  if has (s.mem table i) present && s.mem table i != entry && mode == .reject then
    (.error .alreadyMapped, s)
  else (.ok (), s.write table i entry)

/-- `map_page_locked`. -/
def mapPageLocked (s : Machine) (virtualAddress physical : ℕ) (flags : PageFlags)
    (mode : Overwrite) : Option (Except MapError Unit × Machine) :=
  if virtualAddress % pageSize ≠ 0 ∨ physical % pageSize ≠ 0 then some (.error .unaligned, s)
  else if !isCanonical virtualAddress then some (.error .nonCanonical, s)
  else if physical ≥ 2 ^ 52 then none
  else if index virtualAddress 0 < kernelPml4First ∧ s.lowerHalfDropped then
    some (.error .lowerHalf, s)
  else if ¬(index virtualAddress 0 < kernelPml4First ∨ !s.frozen ∨
      has (s.mem s.root (index virtualAddress 0)) present) then none
  else
    match s.child s.root (index virtualAddress 0) with
    | (none, s) => some (.error .outOfFrames, s)
    | (some pdpt, s) =>
      match s.below pdpt (index virtualAddress 1) pieces1G with
      | (none, s) => some (.error .outOfFrames, s)
      | (some pd, s) =>
        match s.below pd (index virtualAddress 2) pieces2M with
        | (none, s) => some (.error .outOfFrames, s)
        | (some pt, s) =>
          some (s.setPage pt (index virtualAddress 3)
            (BitVec.ofNat 64 physical ||| flags.bits) mode)

/-- `map_page`. -/
def mapPage (s : Machine) (virtualAddress physical : ℕ) (flags : PageFlags) :
    Option (Except MapError Unit × Machine) :=
  s.mapPageLocked virtualAddress physical flags .reject

/-- `remap_page`. -/
def remapPage (s : Machine) (virtualAddress physical : ℕ) (flags : PageFlags) :
    Option (Except MapError Unit × Machine) :=
  s.mapPageLocked virtualAddress physical flags .replace

/-- `count` pages, one after the other. An address that overflows panics. -/
def fillPages (flags : PageFlags) : ℕ → Machine → ℕ → ℕ → Option (Except MapError Unit × Machine)
  | 0, s, _, _ => some (.ok (), s)
  | count + 1, s, virtualAddress, physical =>
    if virtualAddress ≥ 2 ^ 64 then none
    else
      match s.mapPageLocked virtualAddress physical flags .replace with
      | none => none
      | some (.error e, s) => some (.error e, s)
      | some (.ok (), s) =>
        fillPages flags count s (virtualAddress + pageSize) (physical + pageSize)

/-- The slot of a leaf of 2 MiB or 1 GiB; `none` is exhaustion. -/
def leafSlot (s : Machine) (virtualAddress size : ℕ) : Option (Word × ℕ) × Machine :=
  match s.child s.root (index virtualAddress 0) with
  | (none, s) => (none, s)
  | (some pdpt, s) =>
    if size = gigabyte then (some (pdpt, index virtualAddress 1), s)
    else
      match s.child pdpt (index virtualAddress 1) with
      | (none, s) => (none, s)
      | (some pd, s) => (some (pd, index virtualAddress 2), s)

/-- `map_leaf`. -/
def mapLeaf (s : Machine) (virtualAddress physical size : ℕ) (flags : PageFlags) :
    Option (Except MapError Unit × Machine) :=
  if size = pageSize then s.mapPageLocked virtualAddress physical flags .replace
  else if !isCanonical virtualAddress then some (.error .rangeLimit, s)
  else
    match s.leafSlot virtualAddress size with
    | (none, s) => some (.error .outOfFrames, s)
    | (some (table, i), s) =>
      if has (s.mem table i) present && !has (s.mem table i) huge then
        -- a finer table is filled page by page
        fillPages flags (size / pageSize) s virtualAddress physical
      else some (.ok (), s.write table i (BitVec.ofNat 64 physical ||| flags.bits ||| huge))

end Machine

/-- The flags that `map_range` gives a kind of memory. -/
def rangeFlags : PhysicalMemoryKind → PageFlags
  | .reserved => .kernelText
  | .mmio => .mmio
  | .usable | .acpiReclaimable | .acpiNvs | .runtime => .writable

/-- The leaf size that `map_range` chooses. -/
def chunkSize (kind : PhysicalMemoryKind) (gigabytePages : Bool) (physical remaining : ℕ) : ℕ :=
  if kind ≠ .mmio ∧ gigabytePages ∧ physical % gigabyte = 0 ∧ remaining ≥ gigabyte then gigabyte
  else if kind ≠ .mmio ∧ physical % twoMib = 0 ∧ remaining ≥ twoMib then twoMib
  else pageSize

namespace Machine

/-- The loop of `map_range`; `offset` is what is added to a physical address. -/
def mapChunks (kind : PhysicalMemoryKind) (gigabytePages : Bool) (stop offset : ℕ) :
    ℕ → Machine → ℕ → Option (Except MapError Unit × Machine)
  | 0, s, _ => some (.ok (), s)
  | budget + 1, s, physical =>
    if physical < stop then
      let size := chunkSize kind gigabytePages physical (stop - physical)
      match s.mapLeaf (offset + physical) physical size (rangeFlags kind) with
      | none => none
      | some (.error e, s) => some (.error e, s)
      | some (.ok (), s) => mapChunks kind gigabytePages stop offset budget s (physical + size)
    else some (.ok (), s)

/-- `map_range`. -/
def mapRange (s : Machine) (start stop : ℕ) (direct : Bool) (kind : PhysicalMemoryKind)
    (gigabytePages : Bool) : Option (Except MapError Unit × Machine) :=
  if start ≥ stop then some (.ok (), s)
  else if stop > mapLimit then some (.error .rangeLimit, s)
  else mapChunks kind gigabytePages stop (if direct then kernelVirtBase else 0)
    (stop - start) s start

/-- `map_mmio`: the direct-map address. -/
def mapMmio (s : Machine) (physical length : ℕ) : Option (Except MapError ℕ × Machine) :=
  let start := physical - physical % pageSize
  if physical + max length 1 ≥ 2 ^ 64 then some (.error .overflow, s)
  else if physical + max length 1 > 2 ^ 64 - pageSize then none
  else
    let pages := (physical + max length 1 + pageSize - 1) / pageSize - start / pageSize
    (fillPages .mmio pages s (kernelVirtBase + start) start).map fun (result, s) =>
      (result.map fun _ => kernelVirtBase + physical, s)

/-- `table_from_entry`. -/
def tableFromEntry (entry : Word) : Option Word :=
  if has entry present = false ∨ has entry huge = true then none else some (entry &&& physMask4K)

/-- `unmap_page`: the address that was mapped. -/
def unmapPage (s : Machine) (virtualAddress : ℕ) : Except MapError ℕ × Machine :=
  if virtualAddress % pageSize ≠ 0 ∨ virtualAddress < kernelVirtBase then
    (.error .invalidAddress, s)
  else
    let slot := do
      let pdpt ← tableFromEntry (s.mem s.root (index virtualAddress 0))
      let pd ← tableFromEntry (s.mem pdpt (index virtualAddress 1))
      tableFromEntry (s.mem pd (index virtualAddress 2))
    match slot with
    | none => (.error .notMapped, s)
    | some pt =>
      let entry := s.mem pt (index virtualAddress 3)
      if has entry present = false ∨ has entry huge = true then (.error .notMapped, s)
      else (.ok (entry &&& physMask4K).toNat, s.write pt (index virtualAddress 3) 0#64)

/-- `free_frame`. -/
def release (s : Machine) (frame : Word) : Machine :=
  { s with free := frame :: s.free }

/-- The body of the loop of `free_table_tree`; the table lies above `below` more levels. -/
def freeEntry (sub : Word → Machine → Machine) (below : ℕ) (table : Word) (s : Machine) (i : ℕ) :
    Machine :=
  let entry := s.mem table i
  (if below ≠ 0 ∧ has entry present ∧ !has entry huge then sub (entry &&& physMask4K) s else s).write
    table i 0#64

/-- `free_table_tree`. -/
def freeTableTree : ℕ → Word → Machine → Machine
  | 0, frame, s => s.release frame
  | below + 1, frame, s =>
    ((List.range 512).foldl (freeEntry (freeTableTree below) below frame) s).release frame

/-- The body of the loop of `drop_lower_half`. -/
def dropEntry (root : Word) (s : Machine) (i : ℕ) : Machine :=
  let entry := s.mem root i
  if has entry present then (freeTableTree 3 (entry &&& physMask4K) s).write root i 0#64 else s

/-- `drop_lower_half`. -/
def dropLowerHalf (s : Machine) : Machine :=
  { (List.range kernelPml4First).foldl (dropEntry s.root) s with lowerHalfDropped := true }

/-- `AddressSpace::new`: a root with the kernel half of this one. -/
def newRoot (s : Machine) : Option Word × Machine :=
  match s.allocTable with
  | (none, s) => (none, s)
  | (some root, s) => (some root, s.fill root fun i =>
    if kernelPml4First ≤ i ∧ i < 512 then s.mem s.root i else 0#64)

/-- The loop of `walk_entries`: the last entry on the way, with its depth. -/
def walkFrom (s : Machine) (virtualAddress : ℕ) : ℕ → ℕ → Word → Option (ℕ × Word)
  | 0, _, _ => none
  | levels + 1, level, table =>
    let entry := s.mem table (index virtualAddress level)
    if has entry present = false ∨ 0 < level ∧ level < 3 ∧ has entry huge = true ∨ level = 3 then
      some (level, entry)
    else walkFrom s virtualAddress levels (level + 1) (entry &&& physMask4K)

/-- `walk_entries`, of which the last entry is kept. -/
def walk (s : Machine) (virtualAddress : ℕ) : Option (ℕ × Word) :=
  if !isCanonical virtualAddress then none else s.walkFrom virtualAddress 4 0 s.root

/-- `is_mapped_in`, for the kernel root. -/
def isMapped (s : Machine) (virtualAddress : ℕ) : Bool :=
  (s.walk virtualAddress).any fun found => has found.2 present

end Machine

end SaeOS.KernelTables
