import SaeOS.Lib.Strides
import SaeOS.Mm.Paging

/-!
# The mapping planner

`mm/mapping_model.rs` and `map_range` of `mm/paging.rs`. One loop chooses 1 GiB, 2 MiB and 4 KiB
pages for a physical range; `walk_range` shows each choice to a visitor, `plan_range` and
`plan_memory_map` write them down, `check_memory_map` only counts them, and `map_range` installs
them.

A visitor is a function of a state that it may change or stop the loop with. `map_leaf`, which
stores an entry in the kernel's page tables, is a parameter of `mapRange`; what the entries do to
the tables is not looked at here. A plan is the list of its first `count` chunks, and a memory map
that of its first `count` regions.
-/

namespace SaeOS.Mapping

open Paging (pageSize kernelVirtBase PageFlags)

/-- `TWO_MIB`. -/
def twoMib : ℕ := 2 ^ 21

/-- `GIGABYTE`. -/
def gigabyte : ℕ := 2 ^ 30

/-- `FOUR_LEVEL_LIMIT`, and `DIRECT_MAP_LIMIT` and `IDENTITY_MAP_LIMIT` of the runtime. -/
def fourLevelLimit : ℕ := 2 ^ 47

/-- `MAX_CHUNKS`. -/
def maxChunks : ℕ := 4096

/-- The largest `u64`. -/
def maxWord : ℕ := 2 ^ 64 - 1

/-- `MappingError`. -/
inductive MappingError
  | emptyRange | nonCanonicalRange | tooManyChunks
  deriving DecidableEq, Repr

/-- `PageSize`. -/
inductive PageSize
  | oneGiB | twoMiB | fourKiB
  deriving DecidableEq, Repr

/-- The bytes of a page. -/
def PageSize.bytes : PageSize → ℕ
  | oneGiB => gigabyte
  | twoMiB => twoMib
  | fourKiB => pageSize

/-- `PhysicalMemoryKind`. -/
inductive PhysicalMemoryKind
  | usable | reserved | acpiReclaimable | acpiNvs | runtime | mmio
  deriving DecidableEq, Repr

/-- `PhysicalMemoryRegion`. -/
structure PhysicalMemoryRegion where
  start : ℕ
  length : ℕ
  kind : PhysicalMemoryKind
  deriving DecidableEq, Repr

/-- `PhysicalMemoryRegion::end`. -/
def PhysicalMemoryRegion.stop (region : PhysicalMemoryRegion) : ℕ :=
  min (region.start + region.length) maxWord

/-- `PhysicalMemoryMap`. -/
structure PhysicalMemoryMap where
  regions : List PhysicalMemoryRegion

/-- `MappingChunk`. -/
structure MappingChunk where
  physicalStart : ℕ
  virtualStart : ℕ
  size : ℕ
  pageSize : PageSize
  deriving DecidableEq, Repr

/-- The physical addresses of a chunk. -/
def MappingChunk.region (chunk : MappingChunk) : Region :=
  ⟨chunk.physicalStart, chunk.size⟩

/-- `MappingPlan`. -/
structure MappingPlan where
  chunks : List MappingChunk := []
  deriving DecidableEq, Repr

/-- `direct_virtual_address`. -/
def directVirtualAddress (physical : ℕ) : Option ℕ :=
  if physical < fourLevelLimit then some (kernelVirtBase + physical) else none

/-- `identity_virtual_address`. -/
def identityVirtualAddress (physical : ℕ) : Option ℕ :=
  if physical < fourLevelLimit then some physical else none

/-- `leaf_page`. -/
def leafPage (physical remaining : ℕ) (kind : PhysicalMemoryKind) (gigabytePages : Bool) :
    ℕ × PageSize :=
  if kind ≠ .mmio ∧ gigabytePages ∧ physical % gigabyte = 0 ∧ remaining ≥ gigabyte then
    (gigabyte, .oneGiB)
  else if kind ≠ .mmio ∧ physical % twoMib = 0 ∧ remaining ≥ twoMib then (twoMib, .twoMiB)
  else (pageSize, .fourKiB)

theorem leafPage_size (physical remaining : ℕ) (kind : PhysicalMemoryKind) (gigabytePages : Bool) :
    (leafPage physical remaining kind gigabytePages).1 =
      (leafPage physical remaining kind gigabytePages).2.bytes := by
  unfold leafPage
  split_ifs <;> rfl

theorem leafPage_pos (physical remaining : ℕ) (kind : PhysicalMemoryKind) (gigabytePages : Bool) :
    0 < (leafPage physical remaining kind gigabytePages).1 := by
  unfold leafPage
  split_ifs <;> decide

section Planner

variable {σ : Type} (stop : ℕ) (direct : Bool) (kind : PhysicalMemoryKind) (gigabytePages : Bool)

/-- The loop of `walk_range`. -/
def walkFrom (visit : σ → MappingChunk → Except MappingError σ) (physical : ℕ) (s : σ) :
    Except MappingError σ :=
  if physical < stop then
    let leaf := leafPage physical (stop - physical) kind gigabytePages
    let virtualAddress :=
      if direct then directVirtualAddress physical else identityVirtualAddress physical
    match virtualAddress with
    | none => .error .nonCanonicalRange
    | some virtualStart =>
      match visit s ⟨physical, virtualStart, leaf.1, leaf.2⟩ with
      | .error error => .error error
      | .ok s => walkFrom visit (physical + leaf.1) s
  else .ok s
termination_by stop - physical
decreasing_by
  have := leafPage_pos physical (stop - physical) kind gigabytePages
  omega

/-- `walk_range`. -/
def walkRange (start : ℕ) (visit : σ → MappingChunk → Except MappingError σ) (s : σ) :
    Except MappingError σ :=
  if start ≥ stop then .error .emptyRange
  else if stop > fourLevelLimit then .error .nonCanonicalRange
  else walkFrom stop direct kind gigabytePages visit start s

end Planner

/-- A chunk is added to a plan, unless it is full. -/
def MappingPlan.push (plan : MappingPlan) (chunk : MappingChunk) : Except MappingError MappingPlan :=
  if plan.chunks.length = maxChunks then .error .tooManyChunks
  else .ok ⟨plan.chunks ++ [chunk]⟩

/-- `plan_range`. -/
def planRange (start stop : ℕ) (direct : Bool) (kind : PhysicalMemoryKind) (gigabytePages : Bool) :
    Except MappingError MappingPlan :=
  walkRange stop direct kind gigabytePages start MappingPlan.push {}

/-- The regions that are mapped (`maps_in_direct_map`). -/
def mapped (map : PhysicalMemoryMap) : List PhysicalMemoryRegion :=
  map.regions.filter fun region =>
    region.kind == .usable || region.kind == .acpiReclaimable || region.kind == .acpiNvs ||
      region.kind == .runtime || region.kind == .mmio

/-- What `check_memory_map` does with a chunk. -/
def countChunk (count : ℕ) (_ : MappingChunk) : Except MappingError ℕ :=
  if count + 1 > maxChunks then .error .tooManyChunks else .ok (count + 1)

/-- `check_memory_map`. -/
def checkMemoryMap (map : PhysicalMemoryMap) (direct gigabytePages : Bool) :
    Except MappingError Unit :=
  match (mapped map).foldlM (fun count region =>
      walkRange region.stop direct region.kind gigabytePages region.start countChunk count) 0 with
  | .error error => .error error
  | .ok _ => .ok ()

/-- `plan_memory_map`. -/
def planMemoryMap (map : PhysicalMemoryMap) (direct gigabytePages : Bool) :
    Except MappingError MappingPlan :=
  (mapped map).foldlM (fun plan region =>
    walkRange region.stop direct region.kind gigabytePages region.start MappingPlan.push plan) {}

/-! ## The runtime -/

/-- The arguments of a call of `map_leaf`. -/
structure Leaf where
  virtualAddress : ℕ
  physical : ℕ
  size : ℕ
  flags : PageFlags
  deriving DecidableEq, Repr

/-- `PageFlags::KERNEL_TEXT`, `PageFlags::MMIO` and `PageFlags::WRITABLE`, by the kind of memory. -/
def flagsFor (kind : PhysicalMemoryKind) : PageFlags :=
  if kind = .reserved then { writable := false, user := false, noExecute := false }
  else if kind = .mmio then
    { writable := true, user := false, writeThrough := true, cacheDisable := true, noExecute := true }
  else { writable := true, user := false, noExecute := true }

section Runtime

variable {σ : Type} (stop : ℕ) (direct : Bool) (kind : PhysicalMemoryKind) (gigabytePages : Bool)
  (mapLeaf : Leaf → σ → Except String Unit × σ)

/-- The loop of `map_range`. -/
def mapFrom (physical : ℕ) (s : σ) : Except String Unit × σ :=
  if physical < stop then
    let remaining := stop - physical
    let size :=
      if kind ≠ .mmio ∧ gigabytePages ∧ physical % gigabyte = 0 ∧ remaining ≥ gigabyte then gigabyte
      else if kind ≠ .mmio ∧ physical % twoMib = 0 ∧ remaining ≥ twoMib then twoMib
      else pageSize
    let virtualAddress := if direct then kernelVirtBase + physical else physical
    match mapLeaf ⟨virtualAddress, physical, size, flagsFor kind⟩ s with
    | (.error error, s) => (.error error, s)
    | (.ok (), s) => mapFrom (physical + size) s
  else (.ok (), s)
termination_by stop - physical
decreasing_by
  have := leafPage_pos physical (stop - physical) kind gigabytePages
  simp only [leafPage] at this
  split_ifs at * <;> omega

/-- `map_range`. -/
def mapRange (start : ℕ) (s : σ) : Except String Unit × σ :=
  if start ≥ stop then (.ok (), s)
  else if stop > fourLevelLimit then
    (.error "physical range exceeds four-level canonical coverage", s)
  else mapFrom stop direct kind gigabytePages mapLeaf start s

end Runtime

/-- Call `map_leaf` for one leaf after the other, up to the first error. -/
def issue {σ : Type} (mapLeaf : Leaf → σ → Except String Unit × σ) :
    List Leaf → σ → Except String Unit × σ
  | [], s => (.ok (), s)
  | leaf :: rest, s =>
    match mapLeaf leaf s with
    | (.error error, s) => (.error error, s)
    | (.ok (), s) => issue mapLeaf rest s

end SaeOS.Mapping
