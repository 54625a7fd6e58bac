import SaeOS.Mm.PagingLedger

/-!
# Processes with copy-on-write memory

Any number of address spaces over one pool of frames, with the operations that touch them: creating
and dropping a space, mapping and unmapping a page, changing its permissions, forking, copy-on-write
faults, and writes of the processes. Each operation is one step; a run is a list of operations, and
the pool decides where frames or vector memory run out.

`Private` is the memory of a process as the process sees it, and `Naive` the system in which every
process has its own copy of it: forking copies all pages at once, and there are no frames to share.
-/

namespace SaeOS.Paging

open Frame RadixTree

/-! ## The kernel's processes -/

/-- The operations of a run. Processes are numbered in the order of their creation. -/
inductive Op
  | newSpace
  | mapOwned (process address : ℕ) (flags : PageFlags) (contents : ℕ → UInt8)
  | unmap (process address : ℕ)
  | protect (process address : ℕ) (flags : PageFlags)
  | protectInaccessible (process address : ℕ)
  | forkCow (process : ℕ)
  | resolveCow (process address : ℕ)
  | write (process address : ℕ) (byte : UInt8)
  | dropSpace (process : ℕ)

/-- What an operation reports. -/
inductive Result
  | done
  | failed (error : AddressSpaceError)
  | fault
  | cow (resolution : CowResolution)
  | outOfMemory
  | noProcess
  deriving DecidableEq

/-- The address spaces of all processes, dropped ones included, and the frames. -/
structure System where
  pool : Pool
  spaces : List (Option AddressSpace)

/-- Store a byte in a frame. -/
def storeByte (pool : Pool) (frame offset : ℕ) (byte : UInt8) : Pool :=
  pool.fill frame (Function.update (pool.bytes frame) offset byte)

/-- A write of a process: it succeeds if the leaf is writable, otherwise a copy-on-write leaf goes
through `resolve_cow` and the write is tried again, otherwise it faults. -/
def AddressSpace.write (s : AddressSpace) (address : ℕ) (byte : UInt8) (pool : Pool) :
    Result × Pool × AddressSpace :=
  if address ≥ lowerHalfEnd then (.fault, pool, s)
  else
    match s.leaf (pageOf address) with
    | none => (.fault, pool, s)
    | some entry =>
      if entry.flags.writable then
        (.done, storeByte pool entry.frame (address % pageSize) byte, s)
      else
        match s.resolveCow address pool with
        | (.notCow, pool, s) => (.fault, pool, s)
        | (.outOfMemory, pool, s) => (.outOfMemory, pool, s)
        | (.resolved, pool, s) =>
          match s.leaf (pageOf address) with
          | none => (.fault, pool, s)
          | some entry =>
            if entry.flags.writable then
              (.done, storeByte pool entry.frame (address % pageSize) byte, s)
            else (.fault, pool, s)

/-- The result of a fallible operation. -/
def Result.ofExcept {α : Type} : Except AddressSpaceError α → Result
  | .ok _ => .done
  | .error error => .failed error

namespace System

/-- The space of a process that has one. -/
def space (sys : System) (process : ℕ) : Option AddressSpace :=
  sys.spaces[process]?.join

/-- The spaces that exist. -/
def live (spaces : List (Option AddressSpace)) : List AddressSpace :=
  spaces.filterMap id

/-- Run an operation on the space of a process. -/
def withSpace (sys : System) (process : ℕ)
    (operation : AddressSpace → Pool → Result × Pool × AddressSpace) : Result × System :=
  match sys.space process with
  | none => (.noProcess, sys)
  | some s =>
    match operation s sys.pool with
    | (result, pool, s) => (result, { pool, spaces := sys.spaces.set process (some s) })

/-- One operation. -/
def step (sys : System) : Op → Result × System
  | .newSpace =>
    match AddressSpace.new sys.pool with
    | (.error error, pool) => (.failed error, { sys with pool })
    | (.ok s, pool) => (.done, { pool, spaces := sys.spaces ++ [some s] })
  | .mapOwned i address flags contents =>
    sys.withSpace i fun s pool =>
      match s.mapFresh address flags contents pool with
      | (result, pool, s) => (.ofExcept result, pool, s)
  | .unmap i address =>
    sys.withSpace i fun s pool =>
      match s.unmapFree address pool with
      | (result, pool, s) => (.ofExcept result, pool, s)
  | .protect i address flags =>
    sys.withSpace i fun s pool =>
      match s.protect address flags pool with
      | (result, s) => (.ofExcept result, pool, s)
  | .protectInaccessible i address =>
    sys.withSpace i fun s pool =>
      match s.protectInaccessible address pool with
      | (result, s) => (.ofExcept result, pool, s)
  | .forkCow i =>
    match sys.space i with
    | none => (.noProcess, sys)
    | some s =>
      match s.forkCow sys.pool with
      | (.error error, pool, s) => (.failed error, { pool, spaces := sys.spaces.set i (some s) })
      | (.ok child, pool, s) =>
        (.done, { pool, spaces := sys.spaces.set i (some s) ++ [some child] })
  | .resolveCow i address =>
    sys.withSpace i fun s pool =>
      -- page faults outside the lower half never reach `resolve_cow`
      if address ≥ lowerHalfEnd then (.fault, pool, s)
      else
        match s.resolveCow address pool with
        | (resolution, pool, s) => (.cow resolution, pool, s)
  | .write i address byte => sys.withSpace i fun s pool => s.write address byte pool
  | .dropSpace i =>
    match sys.space i with
    | none => (.noProcess, sys)
    | some s => (.done, { pool := s.drop sys.pool, spaces := sys.spaces.set i none })

/-- A run, with the result of every operation. -/
def run (sys : System) : List Op → List Result × System
  | [] => ([], sys)
  | op :: ops =>
    match sys.step op with
    | (result, sys) =>
      match run sys ops with
      | (results, sys) => (result :: results, sys)

end System

/-! ## Private memory -/

/-- A page as its process sees it: its bytes and what it may do with them. -/
structure PrivatePage where
  bytes : ℕ → UInt8
  flags : PageFlags

/-- The memory of one process, by page address. -/
abbrev Private := ℕ → Option PrivatePage

/-- The memories of all processes. -/
abbrev Naive := List (Option Private)

namespace Naive

/-- Run an operation on the memory of a process. -/
def withMemory (n : Naive) (process : ℕ) (operation : Private → Result × Private) :
    Result × Naive :=
  match n[process]?.join with
  | none => (.noProcess, n)
  | some memory =>
    match operation memory with
    | (result, memory) => (result, n.set process (some memory))

/-- Change the permissions of a page; it keeps its memory type. -/
def setFlags (memory : Private) (address : ℕ) (flags : PageFlags) : Result × Private :=
  match memory address with
  | none => (.failed .notMapped, memory)
  | some page =>
    (.done, Function.update memory address (some { page with
      flags := flags.withCache page.flags.writeThrough page.flags.cacheDisable }))

/-- One operation when memory never runs out. -/
def step (n : Naive) : Op → Result × Naive
  | .newSpace => (.done, n ++ [some (fun _ => none : Private)])
  | .mapOwned i address flags contents =>
    n.withMemory i fun memory =>
      match validateUserMapping address 0 flags with
      | .error error => (.failed error, memory)
      | .ok () =>
        match memory address with
        | some _ => (.failed .alreadyMapped, memory)
        | none => (.done, Function.update memory address (some ⟨contents, flags⟩))
  | .unmap i address =>
    n.withMemory i fun memory =>
      match validateUserMapping address 0 .userRead with
      | .error error => (.failed error, memory)
      | .ok () =>
        match memory address with
        | none => (.failed .notMapped, memory)
        | some _ => (.done, Function.update memory address none)
  | .protect i address flags =>
    n.withMemory i fun memory =>
      match validateUserMapping address 0 flags with
      | .error error => (.failed error, memory)
      | .ok () => setFlags memory address flags
  | .protectInaccessible i address =>
    n.withMemory i fun memory =>
      match validateUserMapping address 0 .userRead with
      | .error error => (.failed error, memory)
      | .ok () => setFlags memory address .inaccessible
  | .forkCow i =>
    match n[i]?.join with
    | none => (.noProcess, n)
    | some memory => (.done, n ++ [some memory])
  | .resolveCow _ _ => (.done, n)
  | .write i address byte =>
    n.withMemory i fun memory =>
      if address ≥ lowerHalfEnd then (.fault, memory)
      else
        match memory (pageOf address) with
        | none => (.fault, memory)
        | some page =>
          if page.flags.writable then
            (.done, Function.update memory (pageOf address) (some { page with
              bytes := Function.update page.bytes (address % pageSize) byte }))
          else (.fault, memory)
  | .dropSpace i =>
    match n[i]?.join with
    | none => (.noProcess, n)
    | some _ => (.done, n.set i none)

/-- Results that say that memory ran out: the operation did nothing. -/
def exhausted : Op → Result → Bool
  | .newSpace, .failed .outOfFrames => true
  | .mapOwned _ _ _ _, .failed .outOfFrames => true
  | .forkCow _, .failed .outOfFrames => true
  | .write _ _ _, .outOfMemory => true
  | _, _ => false

/-- The memories after an operation with a given result, if the result is right. A copy-on-write
fault is not visible to processes, whatever comes of it. -/
def follow (n : Naive) : Op × Result → Option Naive
  | (.resolveCow _ _, _) => some n
  | (op, result) =>
    if exhausted op result then some n
    else if (n.step op).1 = result then some (n.step op).2
    else none

/-- The memories after a run with given results. -/
def run (n : Naive) (trace : List (Op × Result)) : Option Naive :=
  trace.foldlM follow n

end Naive

/-- What a process may do with a page: a copy-on-write page is writable to it. -/
def Entry.visible (entry : Entry) : PageFlags :=
  { entry.flags with writable := entry.flags.writable || entry.copyOnWrite }

/-- The memory that a process sees through its page tables. -/
def AddressSpace.view (s : AddressSpace) (pool : Pool) : Private := fun a =>
  if UserPage a then
    (s.leaf a).map fun entry => ⟨pool.bytes entry.frame, entry.visible⟩
  else none

/-- The memories of all processes as they see them. -/
def System.view (sys : System) : Naive :=
  sys.spaces.map (Option.map fun s => s.view sys.pool)

end SaeOS.Paging
