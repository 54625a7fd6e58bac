import Mathlib.Algebra.Group.Nat.Defs
import Mathlib.Data.List.Sort
import SaeOS.Errno

/-!
# A process's memory map

The bookkeeping half of `brk`, `mmap`, `munmap` and `mprotect` (`mm/vma.rs`): which user address
ranges exist, with what protection and backing. Every operation returns the page ranges the page
tables must change.

Addresses are natural numbers standing for `u64` values; the checked operations of the source
(`checked_add`, `checked_next_multiple_of`) are bounded by `addressLimit` explicitly, and the one
unchecked sum, a device region's physical address, wraps. Operations mutate the map in place and
may fail, so each returns its result together with the map it leaves behind, also on an error.
-/

namespace SaeOS.Vma

/-- `PAGE_SIZE`. -/
def pageSize : ℕ := 4096

/-- `MIN_ADDRESS`: the lowest address `mmap` hands out or accepts. -/
def minAddress : ℕ := 0x10000

/-- One past the largest `u64`. -/
def addressLimit : ℕ := 2 ^ 64

/-- Page permissions. -/
structure Protection where
  read : Bool
  write : Bool
  execute : Bool
  deriving DecidableEq, Repr

namespace Protection

/-- `READ_WRITE`, the protection of the heap and the stack. -/
def readWrite : Protection := ⟨true, true, false⟩

end Protection

/-- What backs a region. -/
inductive RegionKind
  | image
  | heap
  | stack
  | anonymous
  /-- Device memory; `physical` is the address behind the region's first page. -/
  | device (physical : ℕ)
  deriving DecidableEq, Repr

namespace RegionKind

/-- The kind of a region whose start moves up by `offset`: a device region's physical address moves
along (in `u64` arithmetic). -/
def shift (offset : ℕ) : RegionKind → RegionKind
  | device physical => device ((physical + offset) % addressLimit)
  | kind => kind

/-- Whether this is device memory. -/
def isDevice : RegionKind → Bool
  | device _ => true
  | _ => false

end RegionKind

/-- A mapped range `start..stop` (`end` in the source). -/
structure Region where
  start : ℕ
  stop : ℕ
  protection : Protection
  kind : RegionKind
  deriving DecidableEq, Repr

namespace Region

/-- The part of this region from `start` to `stop`, with a device region's physical address moved
along. -/
def piece (r : Region) (start stop : ℕ) : Region :=
  { start, stop, protection := r.protection, kind := r.kind.shift (start - r.start) }

/-- Whether the region contains `address`. -/
def contains (r : Region) (address : ℕ) : Bool :=
  r.start ≤ address && address < r.stop

end Region

/-- A page range `start..stop` and the protection it gets. -/
structure Span where
  start : ℕ
  stop : ℕ
  protection : Protection
  deriving DecidableEq, Repr

/-- What a successful `brk` needs the kernel to do. -/
inductive BrkChange
  | unchanged
  | map (span : Span)
  | unmap (span : Span)
  deriving DecidableEq, Repr

/-- What a successful `mmap` needs: unmap `replaced`, then map `new`. -/
structure MmapChange where
  address : ℕ
  replaced : List Span
  new : Span
  deriving DecidableEq, Repr

/-- A process's memory map: its regions, the heap's start, the current break, and the address below
which `mmap` places regions. -/
structure MemoryMap where
  regions : List Region
  brkStart : ℕ
  brk : ℕ
  mmapTop : ℕ
  deriving DecidableEq, Repr

/-- `page_up`: round up to a page boundary, unless that overflows. -/
def pageUp (address : ℕ) : Option ℕ :=
  let up := (address + (pageSize - 1)) / pageSize * pageSize
  if up < addressLimit then some up else none

/-- Whether an address lies on a page boundary. -/
def aligned (address : ℕ) : Bool :=
  address % pageSize == 0

/-- `checked_add` on `u64`. -/
def checkedAdd (a b : ℕ) : Option ℕ :=
  if a + b < addressLimit then some (a + b) else none

/-- The result of an operation that mutates the map: a value or an errno, and the map left
behind. -/
abbrev Outcome (α : Type) : Type := Except Errno α × MemoryMap

namespace MemoryMap

/-- The region containing `address`, if any. -/
def regionAt (m : MemoryMap) (address : ℕ) : Option Region :=
  m.regions.find? (·.contains address)

/-- Whether some region intersects `start..stop`. -/
def overlaps (m : MemoryMap) (start stop : ℕ) : Bool :=
  m.regions.any fun r => start < r.stop && r.start < stop

/-- Add a region at its place in the address order; `EINVAL` if unaligned or empty, `ENOMEM` if it
overlaps an existing one. -/
def insert (m : MemoryMap) (r : Region) : Outcome Unit :=
  if r.start ≥ r.stop || !aligned r.start || !aligned r.stop then (.error .EINVAL, m)
  else if m.overlaps r.start r.stop then (.error .ENOMEM, m)
  else (.ok (), { m with regions := m.regions.orderedInsert (fun a b => a.start ≤ b.start) r })

/-- The map of a freshly exec'd program (`MemoryMap::new`): the regions inserted one by one. -/
def new (regions : List Region) (brkStart mmapTop : ℕ) : Except Errno MemoryMap :=
  regions.foldlM
    (fun m r => match m.insert r with
      | (.ok (), m') => .ok m'
      | (.error e, _) => .error e)
    { regions := [], brkStart, brk := brkStart, mmapTop }

/-- What `remove` keeps of one region. -/
def keptPieces (start stop : ℕ) (r : Region) : List Region :=
  if r.stop ≤ start || stop ≤ r.start then [r]
  else
    (if r.start < start then [r.piece r.start start] else []) ++
      (if stop < r.stop then [r.piece stop r.stop] else [])

/-- What `remove` takes out of one region. -/
def removedSpans (start stop : ℕ) (r : Region) : List Span :=
  if r.stop ≤ start || stop ≤ r.start then []
  else [{ start := max r.start start, stop := min r.stop stop, protection := r.protection }]

/-- Remove `start..stop` from every region, splitting those that extend past it. Returns the
removed pieces in address order. -/
def remove (m : MemoryMap) (start stop : ℕ) : List Span × MemoryMap :=
  (m.regions.flatMap (removedSpans start stop),
    { m with regions := m.regions.flatMap (keptPieces start stop) })

/-- The loop of `find_free`, over the regions from the highest down: `top` is the lowest address
seen so far. -/
def findFreeBelow (length floor : ℕ) : List Region → ℕ → Option ℕ
  | [], top => if length ≤ top && floor ≤ top - length then some (top - length) else none
  | r :: rest, top =>
    if r.start ≥ top then findFreeBelow length floor rest top
    else if r.stop ≤ top && top - r.stop ≥ length then
      if top - length ≥ floor then some (top - length) else none
    else findFreeBelow length floor rest (min top r.start)

/-- `find_free`: the highest free gap of `length` bytes below `mmapTop` and above the heap. -/
def findFree (m : MemoryMap) (length : ℕ) : Option ℕ :=
  match pageUp m.brk with
  | none => none
  | some heapEnd => findFreeBelow length (max heapEnd minAddress) m.regions.reverse m.mmapTop

/-- The `usable` check of `place`: page-aligned, above the floor, and ending below `mmapTop`. -/
def usable (m : MemoryMap) (length start : ℕ) : Bool :=
  minAddress ≤ start && aligned start &&
    match checkedAdd start length with
    | some stop => stop ≤ m.mmapTop
    | none => false

/-- Where `place` puts a mapping of `length` bytes, with the spans it replaces and the map after
their removal. -/
def choosePlace (m : MemoryMap) (hint length : ℕ) (fixed : Bool) : Outcome (ℕ × List Span) :=
  if fixed then
    if m.usable length hint then
      let (replaced, m') := m.remove hint (hint + length)
      (.ok (hint, replaced), m')
    else (.error .ENOMEM, m)
  else if hint != 0 && m.usable length hint && !m.overlaps hint (hint + length) then
    (.ok (hint, []), m)
  else
    match m.findFree length with
    | some address => (.ok (address, []), m)
    | none => (.error .ENOMEM, m)

/-- `place`: the common part of the two kinds of `mmap`. -/
def place (m : MemoryMap) (hint length : ℕ) (protection : Protection) (fixed : Bool)
    (kind : RegionKind) : Outcome MmapChange :=
  if length = 0 then (.error .EINVAL, m)
  else
    match pageUp length with
    | none => (.error .ENOMEM, m)
    | some length =>
      if fixed && !aligned hint then (.error .EINVAL, m)
      else
        match m.choosePlace hint length fixed with
        | (.error e, m') => (.error e, m')
        | (.ok (address, replaced), m') =>
          match m'.insert ⟨address, address + length, protection, kind⟩ with
          | (.error e, m'') => (.error e, m'')
          | (.ok (), m'') =>
            (.ok ⟨address, replaced, ⟨address, address + length, protection⟩⟩, m'')

/-- `mmap` of anonymous private memory; `hint` is required when `fixed`. -/
def mmap (m : MemoryMap) (hint length : ℕ) (protection : Protection) (fixed : Bool) :
    Outcome MmapChange :=
  m.place hint length protection fixed .anonymous

/-- `mmap` of device memory at `physical`. Never executable. -/
def mmapDevice (m : MemoryMap) (hint length : ℕ) (protection : Protection) (physical : ℕ)
    (fixed : Bool) : Outcome MmapChange :=
  if !aligned physical || protection.execute then (.error .EINVAL, m)
  else m.place hint length protection fixed (.device physical)

/-- `munmap`: any mapped pages in the range go; unmapped parts are fine. -/
def munmap (m : MemoryMap) (start length : ℕ) : Outcome (List Span) :=
  if !aligned start || length = 0 then (.error .EINVAL, m)
  else
    match (pageUp length).bind (checkedAdd start) with
    | none => (.error .EINVAL, m)
    | some stop =>
      let (spans, m') := m.remove start stop
      (.ok spans, m')

/-- The coverage loop of `mprotect`: `true` when `cursor..stop` has no gap in the regions. -/
def coveredFrom (stop : ℕ) : List Region → ℕ → Bool
  | [], cursor => stop ≤ cursor
  | r :: rest, cursor =>
    if r.stop ≤ cursor || stop ≤ r.start then coveredFrom stop rest cursor
    else if cursor < r.start then false
    else if stop ≤ r.stop then true
    else coveredFrom stop rest r.stop

/-- Whether a region intersects `start..stop` (the closure `inside` of `mprotect`). -/
def inside (start stop : ℕ) (r : Region) : Bool :=
  r.start < stop && start < r.stop

/-- The part of `r` inside `start..stop`, with its new protection. -/
def reprotected (start stop : ℕ) (protection : Protection) (r : Region) : Region :=
  { r.piece (max r.start start) (min r.stop stop) with protection }

/-- The re-insertion loop of `mprotect`. -/
def insertPieces (start stop : ℕ) (protection : Protection) :
    List Region → MemoryMap → Outcome (List Span)
  | [], m => (.ok [], m)
  | r :: rest, m =>
    let piece := reprotected start stop protection r
    match m.insert piece with
    | (.error e, m') => (.error e, m')
    | (.ok (), m') =>
      match insertPieces start stop protection rest m' with
      | (.error e, m'') => (.error e, m'')
      | (.ok changed, m'') => (.ok (⟨piece.start, piece.stop, protection⟩ :: changed), m'')

/-- `mprotect`: the whole range must be mapped. Returns the spans to re-protect. -/
def mprotect (m : MemoryMap) (start length : ℕ) (protection : Protection) :
    Outcome (List Span) :=
  if !aligned start then (.error .EINVAL, m)
  else
    match (pageUp length).bind (checkedAdd start) with
    | none => (.error .ENOMEM, m)
    | some stop =>
      if start = stop then (.ok [], m)
      else if !coveredFrom stop m.regions start then (.error .ENOMEM, m)
      else if protection.execute &&
          (m.regions.filter (inside start stop)).any (·.kind.isDevice) then (.error .EACCES, m)
      else
        insertPieces start stop protection (m.regions.filter (inside start stop))
          (m.remove start stop).2

/-- The check of `set_brk`: another kind of region in the heap's range blocks the move. -/
def heapBlocked (m : MemoryMap) (heapLimit : ℕ) : Bool :=
  m.regions.any fun r => r.kind != RegionKind.heap && r.start < heapLimit && m.brkStart < r.stop

/-- The change `set_brk` reports when the heap's end moves from `oldEnd` to `newEnd`. -/
def brkChange (oldEnd newEnd : ℕ) : BrkChange :=
  if newEnd > oldEnd then .map ⟨oldEnd, newEnd, .readWrite⟩
  else if newEnd < oldEnd then .unmap ⟨newEnd, oldEnd, .readWrite⟩
  else .unchanged

/-- `brk(address)`: move the program break. The heap region becomes `brkStart..pageUp address`. -/
def setBrk (m : MemoryMap) (address : ℕ) : Outcome BrkChange :=
  if address < m.brkStart then (.error .ENOMEM, m)
  else
    match pageUp m.brk, pageUp address with
    | some oldEnd, some newEnd =>
      if newEnd > m.mmapTop || m.heapBlocked (max oldEnd newEnd) then (.error .ENOMEM, m)
      else
        let kept := { m with regions := m.regions.filter (·.kind != RegionKind.heap) }
        if newEnd > m.brkStart then
          match kept.insert ⟨m.brkStart, newEnd, .readWrite, .heap⟩ with
          | (.error e, m') => (.error e, m')
          | (.ok (), m') => (.ok (brkChange oldEnd newEnd), { m' with brk := address })
        else (.ok (brkChange oldEnd newEnd), { kept with brk := address })
    | _, _ => (.error .ENOMEM, m)

end MemoryMap

end SaeOS.Vma
