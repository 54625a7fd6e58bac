import Mathlib.Data.Nat.Bitwise
import Mathlib.Logic.Function.Basic
import SaeOS.Lib.AlignedBlock
import SaeOS.Lib.LinkedList

/-!
# Buddy free lists over a per-frame state bitmap

The buddy core of the frame allocator (`mm/buddy.rs`). The bitmap decides who owns a frame; the
free lists make finding free blocks fast. Each list node lives in the first bytes of the free block
it describes, so the model keeps one node slot per frame, and a frame that is not free may hold any
bytes there.

The lists and the `FrameStore` they operate on are one state `Buddy`. `usize` values are natural
numbers; the list counts wrap as the machine's do. `while` loops carry a budget that bounds their
iterations. A panic is `none`.
-/

namespace SaeOS

namespace Buddy

/-- `MAX_ORDER`. -/
def maxOrder : ℕ := 18

/-- `DMA32_FRAMES`: frames below 4 GiB. -/
def dma32Frames : ℕ := 2 ^ 20

/-- One past the largest `usize`. -/
def wordLimit : ℕ := 2 ^ 64

/-- `NONE`: the null link. -/
def noFrame : ℕ := wordLimit - 1

/-- `FREE_MAGIC`. -/
def freeMagic : ℕ := 0x5341454f42554459

/-- `head_tag`: the tag of a free block's first frame. -/
def headTag (frame : ℕ) : ℕ :=
  freeMagic ^^^ frame

/-- Ownership of a frame. -/
inductive State
  | reserved
  | free
  | allocated
  deriving DecidableEq, Repr

/-- Allocation zones. -/
inductive Zone
  | dma32
  | normal
  deriving DecidableEq, Repr

/-- The zone of a frame. -/
def Zone.of (frame : ℕ) : Zone :=
  if frame < dma32Frames then .dma32 else .normal

/-- Why a release is refused. -/
inductive ReleaseError
  | outOfRange
  | unaligned
  | duplicateRelease
  | doubleFree
  | invalidRange
  deriving DecidableEq, Repr

/-- The node stored in the first bytes of a free block. -/
structure FreeNode where
  magic : ℕ
  order : ℕ
  prev : ℕ
  next : ℕ
  deriving DecidableEq, Repr

end Buddy

open Buddy

/-- The buddy lists (`heads`, `counts`) together with the frame store: the frame count, small
enough that frame arithmetic does not overflow, the bitmap, and the node slot of every frame. -/
structure Buddy where
  heads : Zone → ℕ → ℕ
  counts : Zone → ℕ → ℕ
  frameCount : ℕ
  noOverflow : frameCount + 2 ^ maxOrder < wordLimit
  state : ℕ → State
  node : ℕ → FreeNode

namespace Buddy

open AlignedBlock

/-- Assign one entry of a table indexed by zone and order. -/
def setAt {β : Type} (table : Zone → ℕ → β) (zone : Zone) (order : ℕ) (value : β) : Zone → ℕ → β :=
  fun z o => if z = zone ∧ o = order then value else table z o

/-- `set_state` on `count` frames from `frame` on. -/
def setStates (b : Buddy) (frame count : ℕ) (state : State) : Buddy :=
  { b with state := fun g => if frame ≤ g ∧ g < frame + count then state else b.state g }

/-- `range_is`: whether `count` frames from `frame` on are all in `state`. -/
def rangeIs (b : Buddy) (frame count : ℕ) (state : State) : Bool :=
  (List.range' frame count).all fun g => b.state g == state

/-- Put a block in front of its free list. -/
def push (b : Buddy) (frame order : ℕ) : Buddy :=
  let zone := Zone.of frame
  let head := b.heads zone order
  let written := Function.update b.node frame
    { magic := headTag frame, order, prev := noFrame, next := head }
  { b with
    node :=
      if head = noFrame then written
      else Function.update written head { written head with prev := frame }
    heads := setAt b.heads zone order frame
    counts := setAt b.counts zone order ((b.counts zone order + 1) % wordLimit) }

/-- Take the block at `frame` out of its free list, wherever it is, and clear its magic. -/
def unlink (b : Buddy) (frame : ℕ) (zone : Zone) (order : ℕ) : Buddy :=
  let prev := (b.node frame).prev
  let next := (b.node frame).next
  let node₁ :=
    if prev = noFrame then b.node else Function.update b.node prev { b.node prev with next }
  let node₂ :=
    if next = noFrame then node₁ else Function.update node₁ next { node₁ next with prev }
  { b with
    node := Function.update node₂ frame { node₂ frame with magic := 0 }
    heads := if prev = noFrame then setAt b.heads zone order next else b.heads
    counts := setAt b.counts zone order ((b.counts zone order + wordLimit - 1) % wordLimit) }

/-- `is_free_head`: whether `frame` looks like the head of a free block of this order. -/
def isFreeHead (b : Buddy) (frame order : ℕ) : Bool :=
  frame + 2 ^ order ≤ b.frameCount && b.state frame == .free &&
    (b.node frame).magic == headTag frame && (b.node frame).order == order

/-- The number of trailing zero bits of `frame`, at most `limit` (and `limit` for zero). -/
def trailingZeros : ℕ → ℕ → ℕ
  | 0, _ => 0
  | limit + 1, frame => if frame % 2 = 1 then 0 else trailingZeros limit (frame / 2) + 1

/-- The shrinking loop of `block_order`. -/
def fitOrder (frame stop : ℕ) : ℕ → ℕ
  | 0 => 0
  | order + 1 => if frame + 2 ^ (order + 1) > stop then fitOrder frame stop order else order + 1

/-- `block_order`: the largest order whose aligned block starting at `frame` fits before `stop`. -/
def blockOrder (frame stop : ℕ) : ℕ :=
  fitOrder frame stop (trailingZeros maxOrder frame)

/-- `insert_run`: carve `frame .. stop` into blocks and list them. -/
def insertRun (stop : ℕ) : ℕ → Buddy → ℕ → Buddy
  | 0, b, _ => b
  | budget + 1, b, frame =>
    if frame < stop then
      let order := blockOrder frame stop
      insertRun stop budget (b.push frame order) (frame + 2 ^ order)
    else b

/-- The end of the run of frames in `state` that starts at `frame`, within `budget` frames. -/
def runEnd (b : Buddy) (state : State) : ℕ → ℕ → ℕ
  | 0, frame => frame
  | budget + 1, frame => if b.state frame = state then runEnd b state budget (frame + 1) else frame

/-- The scanning loop of `build`. -/
def buildFrom : ℕ → Buddy → ℕ → Buddy
  | 0, b, _ => b
  | budget + 1, b, frame =>
    if frame < b.frameCount then
      if b.state frame = .free then
        let stop := b.runEnd .free (b.frameCount - frame) frame
        buildFrom budget (insertRun stop (stop - frame) b frame) stop
      else buildFrom budget b (frame + 1)
    else b

/-- Rebuild the lists from the bitmap. -/
def build (b : Buddy) : Buddy :=
  buildFrom b.frameCount { b with heads := fun _ _ => noFrame, counts := fun _ _ => 0 } 0

/-- The splitting loop of `allocate`: list the upper halves until the block has order `order`. -/
def splitTo (head order : ℕ) : ℕ → Buddy → Buddy
  | 0, b => b
  | current + 1, b =>
    if order < current + 1 then splitTo head order current (b.push (head + 2 ^ current) current)
    else b

/-- The first zone of `zones` with a block of at least this order, and the order found. -/
def findSource (b : Buddy) (order : ℕ) (zones : List Zone) : Option (Zone × ℕ) :=
  zones.findSome? fun zone =>
    ((List.range' order (maxOrder + 1 - order)).find? fun source =>
      b.heads zone source != noFrame).map (zone, ·)

/-- Allocate a block of `2 ^ order` frames from the first zone in `zones` that has one. -/
def allocate (b : Buddy) (order : ℕ) (zones : List Zone) : Option ℕ × Buddy :=
  if order > maxOrder then (none, b)
  else
    match b.findSource order zones with
    | none => (none, b)
    | some (zone, source) =>
      let head := b.heads zone source
      let b := splitTo head order source (b.unlink head zone source)
      (some head, b.setStates head (2 ^ order) .allocated)

/-- The merging loop of `coalesce_and_push`: absorb the buddy while it heads a free block of the
same order. -/
def coalesce : ℕ → Buddy → ℕ → ℕ → Buddy × ℕ × ℕ
  | 0, b, frame, order => (b, frame, order)
  | budget + 1, b, frame, order =>
    let buddy := frame ^^^ 2 ^ order
    if b.isFreeHead buddy order then
      coalesce budget (b.unlink buddy (Zone.of buddy) order) (min frame buddy) (order + 1)
    else (b, frame, order)

/-- `coalesce_and_push`: merge a block with its free buddies and list the result. -/
def coalesceAndPush (b : Buddy) (frame order : ℕ) : Buddy :=
  let (b, frame, order) := coalesce (maxOrder - order) b frame order
  b.push frame order

/-- Release an allocated block and merge it with free buddies. -/
def release (b : Buddy) (frame order : ℕ) : Except ReleaseError Unit × Buddy :=
  let count := 2 ^ order
  if order > maxOrder then (.error .invalidRange, b)
  else if frame + count > b.frameCount then (.error .outOfRange, b)
  else if frame % count ≠ 0 then (.error .unaligned, b)
  else if b.rangeIs frame count .reserved then (.error .duplicateRelease, b)
  else if b.rangeIs frame count .free then (.error .doubleFree, b)
  else if !b.rangeIs frame count .allocated then (.error .invalidRange, b)
  else (.ok (), (b.setStates frame count .free).coalesceAndPush frame order)

/-- The inner loop of `insert_reserved_range`: free and merge one aligned piece at a time. -/
def insertReserved (stop : ℕ) : ℕ → Buddy → ℕ → Buddy
  | 0, b, _ => b
  | budget + 1, b, cursor =>
    if cursor < stop then
      let order := blockOrder cursor stop
      insertReserved stop budget
        ((b.setStates cursor (2 ^ order) .free).coalesceAndPush cursor order)
        (cursor + 2 ^ order)
    else b

/-- The outer loop of `insert_reserved_range`. -/
def insertReservedFrom (stop : ℕ) : ℕ → Buddy → ℕ → Buddy
  | 0, b, _ => b
  | budget + 1, b, index =>
    if index < stop then
      if b.state index = .reserved then
        let runStop := b.runEnd .reserved (stop - index) index
        insertReservedFrom stop budget (insertReserved runStop (runStop - index) b index) runStop
      else insertReservedFrom stop budget b (index + 1)
    else b

/-- `insert_reserved_range`: turn the reserved frames of `frame .. stop` free and list them. -/
def insertReservedRange (b : Buddy) (frame stop : ℕ) : Buddy :=
  let stop := min stop b.frameCount
  insertReservedFrom stop (stop - frame) b frame

/-- The probing loop of `isolate`: the smallest order at which the frame's aligned block looks like
a free head. -/
def findHead (b : Buddy) (frame : ℕ) : Option (ℕ × ℕ) :=
  ((List.range (maxOrder + 1)).find? fun order =>
    b.isFreeHead (alignDown frame order) order).map fun order => (alignDown frame order, order)

/-- The splitting loop of `isolate`: list the half that does not contain `frame`. -/
def splitAround (frame : ℕ) : ℕ → Buddy → ℕ → Buddy
  | 0, b, _ => b
  | current + 1, b, head =>
    let upper := head + 2 ^ current
    if frame ≥ upper then splitAround frame current (b.push head current) upper
    else splitAround frame current (b.push upper current) head

/-- Take one free frame out of the lists without changing its bitmap state. `false` if the frame is
not free; panics (`none`) when no block is found around a free frame. -/
def isolate (b : Buddy) (frame : ℕ) : Option (Bool × Buddy) :=
  if frame ≥ b.frameCount ∨ b.state frame ≠ .free then some (false, b)
  else
    (b.findHead frame).map fun (head, order) =>
      (true, splitAround frame order (b.unlink head (Zone.of head) order) head)

/-- The walk of `validate` along one free list, with the number of further nodes allowed. -/
def walk (b : Buddy) (zone : Zone) (order : ℕ) : ℕ → ℕ → ℕ → ℕ → Except String ℕ
  | 0, _, current, seen => if current = noFrame then .ok seen else .error "free list is cyclic"
  | budget + 1, previous, current, seen =>
    if current = noFrame then .ok seen
    else if current % 2 ^ order ≠ 0 || Zone.of current != zone then
      .error "free block misaligned or in the wrong zone"
    else if !b.rangeIs current (2 ^ order) .free then
      .error "listed block not free in the bitmap"
    else if (b.node current).magic != headTag current || (b.node current).order != order then
      .error "free block header corrupted"
    else if (b.node current).prev != previous then .error "free list back link broken"
    else walk b zone order budget current (b.node current).next (seen + 1)

/-- The check of one list in `validate`: its length, times the size of its blocks. -/
def validateList (b : Buddy) (zone : Zone) (order : ℕ) : Except String ℕ := do
  let seen ← b.walk zone order b.frameCount noFrame (b.heads zone order) 0
  if seen ≠ b.counts zone order then .error "free list count mismatch"
  else .ok (seen * 2 ^ order % wordLimit)

/-- The lists `validate` visits, in order. -/
def allLists : List (Zone × ℕ) :=
  [Zone.dma32, Zone.normal].flatMap fun zone => (List.range (maxOrder + 1)).map (zone, ·)

/-- Walk every list and cross-check it against the bitmap. -/
def validate (b : Buddy) : Except String Unit := do
  let listed ← allLists.foldlM (fun listed list => do
    let frames ← b.validateList list.1 list.2
    pure ((listed + frames) % wordLimit)) 0
  if listed ≠ (List.range b.frameCount).countP (b.state · == .free) then
    .error "free lists do not cover every free frame"
  else .ok ()

/-- The blocks on one free list: the frames met by following the links from its head. -/
def freeList (b : Buddy) (zone : Zone) (order : ℕ) : List ℕ :=
  LinkedList.follow noFrame (fun frame => (b.node frame).next) b.frameCount (b.heads zone order)

end Buddy

end SaeOS
