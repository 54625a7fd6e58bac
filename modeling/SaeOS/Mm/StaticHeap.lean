import SaeOS.Lib.ByteMemory
import SaeOS.Lib.Layout
import SaeOS.Lib.Run

/-!
# The kernel's static heap

`LinkedListAllocator` and `LockedHeap` (`mm/heap.rs`): a sorted list of free regions that is searched
first fit and joins neighbours, with nine size classes in front of it whose free blocks are linked
through their own first words. Allocations above the largest class go to the page heap once that is
enabled, and to the free list before.

The nodes of the free list are kept as a list of regions; the links of the classes are words of memory,
which the program may fill as it likes while it owns a block. The usage counters are left out.
-/

namespace SaeOS.StaticHeap

open Layout

/-- `HEAP_SIZE`. -/
def heapSize : ℕ := 10 * 1024 * 1024

/-- `SMALL_CLASSES`. -/
def smallClasses : List ℕ := [16, 32, 64, 128, 256, 512, 1024, 2048, 4096]

/-- The logarithm of `SMALL_REFILL_BLOCKS`. -/
def smallRefillLog : ℕ := 5

/-- `PAGE_HEAP_BASE`. -/
def pageHeapBase : ℕ := 0xffffc00000000000

def pageHeapSize : ℕ := 2 ^ 30

/-- `size_of::<ListNode>()`: a size and a link. -/
def nodeSize : ℕ := 16

/-- `align_of::<ListNode>()`. -/
def nodeLog : ℕ := 3

/-- The size of the blocks of a class. -/
def classSize (k : ℕ) : ℕ :=
  smallClasses.getD k 0

/-- `align_up`: none on overflow or if the alignment is no power of two. -/
def alignUp (addr align : ℕ) : Option ℕ :=
  if 2 ^ align.log2 ≠ align then none
  else (checkedAdd addr (align - 1)).map fun value => value - value % align

/-- `ListNode::end_addr`. -/
def endAddr (r : Region) : ℕ :=
  min r.stop (wordLimit - 1)

structure LinkedListAllocator where
  /-- The nodes behind the sentinel. -/
  free : List Region := []
  smallHeads : ℕ → ℕ := fun _ => 0
  /-- The memory the links of the classes are in. -/
  memory : Memory

namespace LinkedListAllocator

/-! ## The free list -/

/-- The nodes before and behind a new region; none if it overlaps one. -/
def findGap (addr stop : ℕ) : List Region → Option (List Region × List Region)
  | [] => some ([], [])
  | node :: rest =>
    if stop ≤ node.start then some ([], node :: rest)
    else if addr < endAddr node ∧ stop > node.start then none
    else (findGap addr stop rest).map fun (before, after) => (node :: before, after)

/-- Join a region with the node before it, if they touch. -/
def mergePrevious (before : List Region) (inserted : Region) : List Region × Region :=
  match before.getLast? with
  | some previous =>
    if endAddr previous = inserted.start then
      (before.dropLast, ⟨previous.start, previous.size + inserted.size⟩)
    else (before, inserted)
  | none => (before, inserted)

/-- Join a region with the node behind it, if they touch. -/
def mergeSuccessor (merged : Region) : List Region → List Region
  | successor :: rest =>
    if endAddr merged = successor.start then ⟨merged.start, merged.size + successor.size⟩ :: rest
    else merged :: successor :: rest
  | [] => [merged]

/-- `add_free_region`; none where it returns false. -/
def insertRegion (free : List Region) (addr size : ℕ) : Option (List Region) := do
  if alignUp addr (2 ^ nodeLog) ≠ some addr ∨ size < nodeSize then none
  else
    let stop ← checkedAdd addr size
    let (before, after) ← findGap addr stop free
    let (before, merged) := mergePrevious before ⟨addr, size⟩
    return before ++ mergeSuccessor merged after

/-- `add_free_region` where the result is not looked at. -/
def addFreeRegion (a : LinkedListAllocator) (addr size : ℕ) : LinkedListAllocator :=
  match insertRegion a.free addr size with
  | some free => { a with free }
  | none => a

/-- `alloc_from_region`. -/
def allocFromRegion (region : Region) (size align : ℕ) : Option ℕ := do
  let allocStart ← alignUp region.start align
  if allocStart < region.start then none
  else if allocStart - region.start ≠ 0 ∧ allocStart - region.start < nodeSize then none
  else
    let allocEnd ← checkedAdd allocStart size
    if allocEnd > endAddr region then none
    else if endAddr region - allocEnd > 0 ∧ endAddr region - allocEnd < nodeSize then none
    else return allocStart

/-- `find_region`: the first node that fits, where the block starts in it, and the other nodes. -/
def findRegion (size align : ℕ) : List Region → Option (Region × ℕ × List Region)
  | [] => none
  | region :: rest =>
    match allocFromRegion region size align with
    | some allocStart => some (region, allocStart, rest)
    | none => (findRegion size align rest).map fun (found, allocStart, others) =>
        (found, allocStart, region :: others)

/-- What is left of a region in front of a block and behind it goes back. -/
def returnRest (a : LinkedListAllocator) (region : Region) (allocStart allocEnd : ℕ) :
    LinkedListAllocator :=
  let a := if allocStart - region.start ≠ 0 then
    a.addFreeRegion region.start (allocStart - region.start) else a
  if endAddr region - allocEnd ≠ 0 then a.addFreeRegion allocEnd (endAddr region - allocEnd) else a

/-! ## Size classes -/

/-- Put a block on its class's list. -/
def pushSmall (a : LinkedListAllocator) (k address : ℕ) : LinkedListAllocator :=
  { a with
    memory := a.memory.writeWord address (a.smallHeads k)
    smallHeads := Function.update a.smallHeads k address }

/-- Put `n` blocks on their class's list, from an address on. -/
def threadBlocks (a : LinkedListAllocator) (k address : ℕ) : ℕ → LinkedListAllocator
  | 0 => a
  | n + 1 => threadBlocks (a.pushSmall k address) k (address + classSize k) n

/-- A node for as many blocks as there is room for, from `2 ^ log` of them down to one. -/
def findRun (block : ℕ) (free : List Region) : ℕ → Option (ℕ × Region × ℕ × List Region)
  | 0 => (findRegion block block free).map fun found => (1, found)
  | log + 1 =>
    match findRegion (block * 2 ^ (log + 1)) block free with
    | some found => some (2 ^ (log + 1), found)
    | none => findRun block free log

/-- `refill_small`: the block to hand out, with the others of its run on the class's list. -/
def refillSmall (a : LinkedListAllocator) (k : ℕ) : Option ℕ × LinkedListAllocator :=
  match findRun (classSize k) a.free smallRefillLog with
  | none => (none, a)
  | some (blocks, region, allocStart, free) =>
    let a := { a with free }
    match checkedAdd allocStart (classSize k * blocks) with
    | none => (none, a)
    | some allocEnd =>
      let a := a.returnRest region allocStart allocEnd
      (some allocStart, a.threadBlocks k (allocStart + classSize k) (blocks - 1))

/-! ## Allocation -/

/-- `size_align`. -/
def sizeAlign (layout : Layout) : Option (ℕ × ℕ) := do
  let layout ← fromSizeLog layout.size (max layout.log nodeLog)
  if layout.padToAlign > 4096 then
    let size ← checkedAdd layout.padToAlign 4095
    return (size / 4096 * 4096, max layout.align 4096)
  else return (max layout.padToAlign nodeSize, layout.align)

/-- `small_class`. -/
def smallClass (layout : Layout) : Option ℕ :=
  let required := max (max layout.size layout.align) 16
  smallClasses.findIdx? fun size => size ≥ required

/-- The part of `alloc` that the static heap serves; 0 is null. -/
def alloc (a : LinkedListAllocator) (layout : Layout) : ℕ × LinkedListAllocator :=
  match sizeAlign layout with
  | none => (0, a)
  | some (size, align) =>
    match smallClass layout with
    | some k =>
      if a.smallHeads k ≠ 0 then
        let address := a.smallHeads k
        (address, { a with
          smallHeads := Function.update a.smallHeads k (a.memory.readWord address) })
      else
        let (address, a) := a.refillSmall k
        (address.getD 0, a)
    | none =>
      match findRegion size align a.free with
      | none => (0, a)
      | some (region, allocStart, free) =>
        let a := { a with free }
        match checkedAdd allocStart size with
        | none => (0, a)
        | some allocEnd => (allocStart, a.returnRest region allocStart allocEnd)

/-- `dealloc`; an address in the page heap is not the static heap's business. -/
def dealloc (a : LinkedListAllocator) (address : ℕ) (layout : Layout) : LinkedListAllocator :=
  if pageHeapBase ≤ address ∧ address < pageHeapBase + pageHeapSize then a
  else
    match sizeAlign layout with
    | none => a
    | some (size, _) =>
      match smallClass layout with
      | some k => a.pushSmall k address
      | none => a.addFreeRegion address size

/-- `init` over a memory; none if it reports failure. -/
def init (memory : Memory) (start size : ℕ) : Option LinkedListAllocator := do
  let free ← insertRegion [] start size
  return { free, memory }

end LinkedListAllocator

/-! ## Runs -/

/-- The size of the block a layout gets. -/
def blockSize (layout : Layout) : ℕ :=
  match LinkedListAllocator.smallClass layout with
  | some k => classSize k
  | none => ((LinkedListAllocator.sizeAlign layout).map Prod.fst).getD 0

/-- The heap with the blocks that are in use. -/
structure World where
  allocator : LinkedListAllocator
  /-- `PAGE_HEAP_READY`. -/
  pageHeapReady : Bool
  live : List (ℕ × Layout)

/-- The block of an allocation. -/
def block (b : ℕ × Layout) : Region :=
  ⟨b.1, blockSize b.2⟩

inductive Op
  | alloc (layout : Layout)
  | dealloc (address : ℕ) (layout : Layout)
  | enablePageHeap
  /-- The program writes to its blocks. -/
  | write (memory : Memory)

inductive World.Step : World → Op → World → Prop
  /-- Large allocations go to the page heap once it is enabled. -/
  | page {w : World} {layout : Layout} (hsize : 4096 < layout.size) (hready : w.pageHeapReady) :
      Step w (.alloc layout) w
  | alloc {w : World} {layout : Layout} {address : ℕ} {a : LinkedListAllocator}
      (hroute : ¬ (4096 < layout.size ∧ w.pageHeapReady))
      (halloc : w.allocator.alloc layout = (address, a)) (haddress : address ≠ 0) :
      Step w (.alloc layout) { w with allocator := a, live := (address, layout) :: w.live }
  | fail {w : World} {layout : Layout} {a : LinkedListAllocator}
      (hroute : ¬ (4096 < layout.size ∧ w.pageHeapReady))
      (halloc : w.allocator.alloc layout = (0, a)) :
      Step w (.alloc layout) { w with allocator := a }
  | dealloc {w : World} {address : ℕ} {layout : Layout} (hlive : (address, layout) ∈ w.live) :
      Step w (.dealloc address layout)
        { w with allocator := w.allocator.dealloc address layout
                 live := w.live.erase (address, layout) }
  | enablePageHeap {w : World} : Step w .enablePageHeap { w with pageHeapReady := true }
  | write {w : World} {memory : Memory}
      (houtside : ∀ x, (∀ b ∈ w.live, ¬ (block b).Has x) → memory x = w.allocator.memory x) :
      Step w (.write memory) { w with allocator := { w.allocator with memory } }

/-- The storage of the heap: page aligned, not at null and below the page heap. -/
structure Storage where
  base : ℕ
  aligned : 4096 ∣ base
  pos : 0 < base
  below : base + heapSize ≤ pageHeapBase

/-- The heap after `init`, over any memory. -/
def World.Initial (storage : Storage) (w : World) : Prop :=
  (∃ memory, LinkedListAllocator.init memory storage.base heapSize = some w.allocator) ∧
    w.pageHeapReady = false ∧ w.live = []

def World.Reachable (storage : Storage) : World → Prop :=
  Run.Reachable (World.Initial storage) World.Step

end SaeOS.StaticHeap
