import SaeOS.Lib.RadixTree
import SaeOS.Lib.Vec
import SaeOS.Mm.FramePool

/-!
# Page tables of a user address space

`AddressSpace` of `mm/paging.rs`: a four-level page table over the lower half, the list of the pages
whose frames the space owns, and the list of borrowed device pages. Copy-on-write after `fork` is
`forkCow` and `resolveCow`.

The table tree is a radix tree of depth four with 512 slots a table; the block of a table is the
frame it lives in. Only the lower half is kept: the upper half is shared with the kernel, and no
function here writes to it. A leaf is present if the tree has an entry for it. There are no huge
pages in the lower half, so the `HugePage` errors and the `HUGE` and `PAT` bits are left out, as are
TLB flushes. Functions that change frames or the space return both next to their result.
-/

namespace SaeOS.Paging

open Frame RadixTree

/-- `PAGE_SIZE`. -/
def pageSize : ℕ := 4096

/-- Slots of a page table. -/
def tableSlots : ℕ := 512

/-- The first address after the canonical lower half. -/
def lowerHalfEnd : ℕ := 2 ^ 47

/-- `KERNEL_VIRT_BASE`. -/
def kernelVirtBase : ℕ := 0xffff_8000_0000_0000

/-- The page an address lies in. -/
def pageOf (virtualAddress : ℕ) : ℕ :=
  virtualAddress / pageSize * pageSize

/-- `PageFlags`: permission and cache bits. `PRESENT` is set in all of them. -/
structure PageFlags where
  writable : Bool
  user : Bool
  writeThrough : Bool := false
  cacheDisable : Bool := false
  noExecute : Bool
  deriving DecidableEq, Repr

namespace PageFlags

/-- `USER_READ`. -/
def userRead : PageFlags := { writable := false, user := true, noExecute := true }

/-- `USER_READ_WRITE`. -/
def userReadWrite : PageFlags := { writable := true, user := true, noExecute := true }

/-- The bits of an inaccessible page: supervisor only, read-only, not executable. -/
def inaccessible : PageFlags := { writable := false, user := false, noExecute := true }

/-- `with_cache`. -/
def withCache (flags : PageFlags) (writeThrough cacheDisable : Bool) : PageFlags :=
  { flags with
    writeThrough := flags.writeThrough || writeThrough
    cacheDisable := flags.cacheDisable || cacheDisable }

end PageFlags

/-- `AddressSpaceError`. -/
inductive AddressSpaceError
  | outOfFrames | unaligned | noncanonical | kernelAddress | invalidFlags | alreadyMapped | notMapped
  deriving DecidableEq, Repr

/-- `MappingOwnership`. -/
inductive MappingOwnership
  | borrowed | owned
  deriving DecidableEq, Repr

/-- `CowResolution`. -/
inductive CowResolution
  | notCow | resolved | outOfMemory
  deriving DecidableEq, Repr

/-- A present leaf entry: the frame, its permission bits, and the `COPY_ON_WRITE` bit. -/
structure Entry where
  frame : ℕ
  flags : PageFlags
  copyOnWrite : Bool := false
  deriving DecidableEq, Repr

namespace Entry

/-- The entry that both sides of a fork get: a writable page becomes read-only and copy-on-write. -/
def markCow (entry : Entry) : Entry :=
  if entry.flags.writable then
    { entry with flags := { entry.flags with writable := false }, copyOnWrite := true }
  else entry

/-- The entry of a page that is no longer shared. -/
def resolve (entry : Entry) (frame : ℕ) : Entry :=
  { frame, flags := { entry.flags with writable := true }, copyOnWrite := false }

/-- `set_leaf_flags` on one entry: new permission bits, the old memory type. -/
def setFlags (entry : Entry) (flags : PageFlags) (shared : Bool) : Entry :=
  { frame := entry.frame
    flags :=
      { flags.withCache entry.flags.writeThrough entry.flags.cacheDisable with
        writable := flags.writable && !shared }
    copyOnWrite := flags.writable && shared }

end Entry

/-- `OwnedMapping`. -/
structure OwnedMapping where
  virtualAddress : ℕ
  frame : ℕ
  deriving DecidableEq, Repr

/-- `UnmappedMapping`, without the old permission bits, which no caller reads. -/
structure UnmappedMapping where
  frame : ℕ
  ownership : MappingOwnership
  deriving DecidableEq, Repr

/-- `AddressSpace`. -/
structure AddressSpace where
  root : Tree Entry 4
  owned : List OwnedMapping
  devices : List OwnedMapping

/-- `validate_user_mapping`. -/
def validateUserMapping (virtualAddress physical : ℕ) (flags : PageFlags) :
    Except AddressSpaceError Unit :=
  if virtualAddress % pageSize ≠ 0 ∨ physical % pageSize ≠ 0 then .error .unaligned
  else if virtualAddress ≥ lowerHalfEnd then
    if virtualAddress ≥ kernelVirtBase then .error .kernelAddress else .error .noncanonical
  else if flags.user = false then .error .invalidFlags
  else if flags.writable && !flags.noExecute then .error .invalidFlags
  else .ok ()

/-- `map_page_in_root` from the table at height `n + 1` down: tables that are missing on the way are
allocated, and given back if the page cannot be mapped after all. -/
def mapPage : (n : ℕ) → Tree Entry (n + 1) → ℕ → Entry → Pool →
    Except AddressSpaceError (Tree Entry (n + 1)) × Pool
  | 0, t, page, entry, pool =>
    match t.table.slot (page / tableSlots ^ 0 % tableSlots) with
    | some _ => (.error .alreadyMapped, pool)
    | none => (.ok (.ofTable (t.table.set (page / tableSlots ^ 0 % tableSlots) (some entry))), pool)
  | n + 1, t, page, entry, pool =>
    match t.table.slot (page / tableSlots ^ (n + 1) % tableSlots) with
    | some sub =>
      match mapPage n sub page entry pool with
      | (.ok sub, pool) =>
        (.ok (.ofTable (t.table.set (page / tableSlots ^ (n + 1) % tableSlots) (some sub))), pool)
      | (.error error, pool) => (.error error, pool)
    | none =>
      match pool.allocFrameZeroed with
      | (none, pool) => (.error .outOfFrames, pool)
      | (some f, pool) =>
        match mapPage n (.ofTable (Table.empty f)) page entry pool with
        | (.ok sub, pool) =>
          (.ok (.ofTable (t.table.set (page / tableSlots ^ (n + 1) % tableSlots) (some sub))), pool)
        | (.error error, pool) => (.error error, pool.freeFrame f)

/-- `unmap_page_in_root` from the table at height `n + 1` down, without the address check: tables
that became empty are given back. -/
def unmapPage : (n : ℕ) → Tree Entry (n + 1) → ℕ → Pool →
    Except AddressSpaceError (Entry × Tree Entry (n + 1)) × Pool
  | 0, t, page, pool =>
    match t.table.slot (page / tableSlots ^ 0 % tableSlots) with
    | none => (.error .notMapped, pool)
    | some entry =>
      (.ok (entry, .ofTable (t.table.set (page / tableSlots ^ 0 % tableSlots) none)), pool)
  | n + 1, t, page, pool =>
    match t.table.slot (page / tableSlots ^ (n + 1) % tableSlots) with
    | none => (.error .notMapped, pool)
    | some sub =>
      match unmapPage n sub page pool with
      | (.error error, pool) => (.error error, pool)
      | (.ok (entry, sub), pool) =>
        if sub.table.isEmpty tableSlots then
          (.ok (entry, .ofTable (t.table.set (page / tableSlots ^ (n + 1) % tableSlots) none)),
            pool.freeFrame sub.table.block)
        else
          (.ok (entry, .ofTable (t.table.set (page / tableSlots ^ (n + 1) % tableSlots) (some sub))),
            pool)

/-- Give the first mapping of a page another frame. -/
def setFrame (page frame : ℕ) : List OwnedMapping → List OwnedMapping
  | [] => []
  | mapping :: rest =>
    if mapping.virtualAddress = page then { mapping with frame } :: rest
    else mapping :: setFrame page frame rest

namespace AddressSpace

/-- The frames of the page tables, the root last. -/
def tables (s : AddressSpace) : List ℕ :=
  s.root.blocks tableSlots 4

/-- The frames of the owned pages. -/
def ownedFrames (s : AddressSpace) : List ℕ :=
  s.owned.map OwnedMapping.frame

/-- `AddressSpace::new`. -/
def new (pool : Pool) : Except AddressSpaceError AddressSpace × Pool :=
  match pool.allocFrameZeroed with
  | (none, pool) => (.error .outOfFrames, pool)
  | (some root, pool) => (.ok ⟨.ofTable (Table.empty root), [], []⟩, pool)

/-- `Drop`: the tables below the root, the owned frames, the root. -/
def drop (s : AddressSpace) (pool : Pool) : Pool :=
  ((pool.freeAll (s.root.table.blocksBelow tableSlots (Tree.blocks tableSlots 3))).freeAll
    s.ownedFrames).freeFrame s.root.table.block

/-- The leaf entry of a page, as `leaf_slot` finds it. -/
def leaf (s : AddressSpace) (virtualAddress : ℕ) : Option Entry :=
  s.root.lookup tableSlots 4 (virtualAddress / pageSize)

/-- Write to the leaf slot of a page. -/
def setLeaf (s : AddressSpace) (virtualAddress : ℕ) (entry : Entry) : AddressSpace :=
  { s with root := s.root.modify tableSlots 4 (virtualAddress / pageSize) fun _ => entry }

/-- `map`. -/
def map (s : AddressSpace) (virtualAddress physical : ℕ) (flags : PageFlags) (pool : Pool) :
    Except AddressSpaceError Unit × Pool × AddressSpace :=
  match validateUserMapping virtualAddress physical flags with
  | .error error => (.error error, pool, s)
  | .ok () =>
    match mapPage 3 s.root (virtualAddress / pageSize) { frame := physical, flags } pool with
    | (.error error, pool) => (.error error, pool, s)
    | (.ok root, pool) => (.ok (), pool, { s with root })

/-- `map_owned`. -/
def mapOwned (s : AddressSpace) (virtualAddress physical : ℕ) (flags : PageFlags) (pool : Pool) :
    Except AddressSpaceError Unit × Pool × AddressSpace :=
  match pool.tryReserve 1 with
  | (false, pool) => (.error .outOfFrames, pool, s)
  | (true, pool) =>
    match s.map virtualAddress physical flags pool with
    | (.error error, pool, s) => (.error error, pool, s)
    | (.ok (), pool, s) =>
      (.ok (), pool, { s with owned := s.owned ++ [⟨virtualAddress, physical⟩] })

/-- `page_entry_inner`. -/
def pageEntryInner (s : AddressSpace) (virtualAddress : ℕ) : Except AddressSpaceError Entry :=
  if virtualAddress % pageSize ≠ 0 then .error .unaligned
  else if virtualAddress ≥ lowerHalfEnd then
    if virtualAddress ≥ kernelVirtBase then .error .kernelAddress else .error .noncanonical
  else
    match s.leaf virtualAddress with
    | none => .error .notMapped
    | some entry => .ok entry

/-- The position of a page in a list of mappings. -/
def position (virtualAddress : ℕ) (mappings : List OwnedMapping) : Option ℕ :=
  mappings.findIdx? fun mapping => mapping.virtualAddress == virtualAddress

/-- `remove_owned`. -/
def removeOwned (s : AddressSpace) (virtualAddress frame : ℕ) : MappingOwnership × AddressSpace :=
  match position virtualAddress s.devices with
  | some index => (.borrowed, { s with devices := Vec.swapRemove s.devices index })
  | none =>
    match position virtualAddress s.owned with
    | some index =>
      let ownership := match s.owned[index]? with
        | some mapping => if mapping.frame = frame then .owned else .borrowed
        | none => .borrowed
      (ownership, { s with owned := Vec.swapRemove s.owned index })
    | none => (.borrowed, s)

/-- `unmap_mapping`. -/
def unmapMapping (s : AddressSpace) (virtualAddress : ℕ) (pool : Pool) :
    Except AddressSpaceError UnmappedMapping × Pool × AddressSpace :=
  match s.pageEntryInner virtualAddress with
  | .error error => (.error error, pool, s)
  | .ok _ =>
    match validateUserMapping virtualAddress 0 .userRead with
    | .error error => (.error error, pool, s)
    | .ok () =>
      match unmapPage 3 s.root (virtualAddress / pageSize) pool with
      | (.error error, pool) => (.error error, pool, s)
      | (.ok (entry, root), pool) =>
        let removed := { s with root }.removeOwned virtualAddress entry.frame
        (.ok ⟨entry.frame, removed.1⟩, pool, removed.2)

/-- `set_leaf_flags`. -/
def setLeafFlags (s : AddressSpace) (virtualAddress : ℕ) (flags : PageFlags) (pool : Pool) :
    Except AddressSpaceError Unit × AddressSpace :=
  match s.leaf virtualAddress with
  | none => (.error .notMapped, s)
  | some entry =>
    (.ok (), s.setLeaf virtualAddress (entry.setFlags flags (pool.shared entry.frame)))

/-- `protect`. -/
def protect (s : AddressSpace) (virtualAddress : ℕ) (flags : PageFlags) (pool : Pool) :
    Except AddressSpaceError Unit × AddressSpace :=
  match validateUserMapping virtualAddress 0 flags with
  | .error error => (.error error, s)
  | .ok () => s.setLeafFlags virtualAddress flags pool

/-- `protect_inaccessible`. -/
def protectInaccessible (s : AddressSpace) (virtualAddress : ℕ) (pool : Pool) :
    Except AddressSpaceError Unit × AddressSpace :=
  match validateUserMapping virtualAddress 0 .userRead with
  | .error error => (.error error, s)
  | .ok () => s.setLeafFlags virtualAddress .inaccessible pool

/-- What `fork_cow` works on: the frames, this space, and the child with the list of mappings that
it is given at the end. -/
structure Forking where
  pool : Pool
  parent : AddressSpace
  child : AddressSpace
  childOwned : List OwnedMapping
  childDevices : List OwnedMapping := []

/-- The loop of `fork_cow` over the owned pages. On an error the child is dropped as it is then: only
a failed mapping hands it the pages taken so far, the other two errors return at once. -/
def forkOwned : List OwnedMapping → Forking → Except (AddressSpaceError × Forking) Forking
  | [], st => .ok st
  | mapping :: rest, st =>
    match st.parent.leaf mapping.virtualAddress with
    | none => .error (.notMapped, st)
    | some entry =>
      let st := { st with parent := st.parent.setLeaf mapping.virtualAddress entry.markCow }
      match st.pool.frameGet mapping.frame with
      | (false, pool) => .error (.outOfFrames, { st with pool })
      | (true, pool) =>
        match mapPage 3 st.child.root (mapping.virtualAddress / pageSize)
            { entry.markCow with frame := mapping.frame } pool with
        | (.error error, pool) =>
          .error (error, { st with
            pool := pool.freeFrame mapping.frame
            child := { st.child with owned := st.childOwned } })
        | (.ok root, pool) =>
          forkOwned rest { st with
            pool
            child := { st.child with root }
            childOwned := st.childOwned ++ [mapping] }

/-- The loop of `fork_cow` over the device pages. -/
def forkDevices : List OwnedMapping → Forking → Except (AddressSpaceError × Forking) Forking
  | [], st => .ok st
  | mapping :: rest, st =>
    match st.parent.leaf mapping.virtualAddress with
    | none => .error (.notMapped, st)
    | some entry =>
      match mapPage 3 st.child.root (mapping.virtualAddress / pageSize)
          { entry with frame := mapping.frame } st.pool with
      | (.error error, pool) =>
        .error (error, { st with
          pool
          child := { st.child with owned := st.childOwned, devices := st.childDevices } })
      | (.ok root, pool) =>
        forkDevices rest { st with
          pool
          child := { st.child with root }
          childDevices := st.childDevices ++ [mapping] }

/-- `fork_cow`. -/
def forkCow (s : AddressSpace) (pool : Pool) :
    Except AddressSpaceError AddressSpace × Pool × AddressSpace :=
  match new pool with
  | (.error error, pool) => (.error error, pool, s)
  | (.ok child, pool) =>
    match pool.tryReserve s.owned.length with
    | (false, pool) => (.error .outOfFrames, child.drop pool, s)
    | (true, pool) =>
      match forkOwned s.owned { pool, parent := s, child, childOwned := [] } with
      | .error (error, st) => (.error error, st.child.drop st.pool, st.parent)
      | .ok st =>
        match st.pool.tryReserve s.devices.length with
        | (false, pool) => (.error .outOfFrames, st.child.drop pool, st.parent)
        | (true, pool) =>
          match forkDevices s.devices { st with pool } with
          | .error (error, st) => (.error error, st.child.drop st.pool, st.parent)
          | .ok st =>
            (.ok { st.child with owned := st.childOwned, devices := st.childDevices }, st.pool,
              st.parent)

/-- `resolve_cow`. -/
def resolveCow (s : AddressSpace) (virtualAddress : ℕ) (pool : Pool) :
    CowResolution × Pool × AddressSpace :=
  let page := pageOf virtualAddress
  match s.leaf page with
  | none => (.notCow, pool, s)
  | some entry =>
    if entry.copyOnWrite = false then (.notCow, pool, s)
    else if pool.shared entry.frame = false then
      (.resolved, pool, s.setLeaf page (entry.resolve entry.frame))
    else
      match pool.allocFrame with
      | (none, pool) => (.outOfMemory, pool, s)
      | (some copy, pool) =>
        let pool := pool.fill copy (pool.bytes entry.frame)
        let s := s.setLeaf page (entry.resolve copy)
        let s := { s with owned := setFrame page copy s.owned }
        (.resolved, pool.freeFrame entry.frame, s)

end AddressSpace

end SaeOS.Paging
