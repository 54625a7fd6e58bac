import Mathlib.Data.Nat.Log
import SaeOS.Lib.ByteMemory
import SaeOS.Lib.Layout
import SaeOS.Lib.Run

/-!
# The userspace heap

`Heap` of `libsaeos/src/heap.rs`: size classes over memory a `Source` grants, large blocks as mappings of
their own. The size of a block is not stored anywhere: `alloc`, `dealloc` and `realloc` compute it from
the layout. A free block of a class holds the link to the next one in its first word.

Addresses are numbers and 0 is null. The program's memory is part of the heap's state, since the links
are in it.
-/

namespace SaeOS.Libsaeos

open Layout

/-- `MIN_BLOCK`. -/
def minBlock : ℕ := 16

/-- `LARGE`. -/
def large : ℕ := 64 * 1024

/-- `CLASSES`. -/
def classes : ℕ := 13

/-- `PAGE`. -/
def page : ℕ := 4096

/-- `GROWTH`. -/
def growth : ℕ := 64 * 1024

/-- Where the heap gets memory. -/
structure Source (σ : Type) where
  grow : σ → ℕ → Option ℕ × σ
  map : σ → ℕ → Option ℕ × σ
  unmap : σ → ℕ → ℕ → σ

/-- `checked_next_power_of_two`. -/
def nextPowerOfTwo (n : ℕ) : Option ℕ :=
  if 2 ^ Nat.clog 2 n < wordLimit then some (2 ^ Nat.clog 2 n) else none

/-- The size class of a layout, or none if it gets its own mapping. A block size is a power of two, so
its trailing zeros are its logarithm. -/
def sizeClass (layout : Layout) : Option ℕ := do
  let block ← nextPowerOfTwo (max (max layout.size layout.align) minBlock)
  if block ≤ large then some (Nat.log 2 (block / minBlock)) else none

def blockSize (k : ℕ) : ℕ :=
  minBlock <<< k

def largeSize (layout : Layout) : Option ℕ :=
  if roundUp layout.size page < wordLimit then some (roundUp layout.size page) else none

structure Heap (σ : Type) where
  source : σ
  free : ℕ → ℕ := fun _ => 0
  bump : ℕ := 0
  stop : ℕ := 0
  memory : Memory

namespace Heap

variable {σ : Type}

def new (source : σ) (memory : Memory) : Heap σ where
  source := source
  memory := memory

/-- Whether a block of the heap fits from `start` on. -/
def fits (h : Heap σ) (start size : ℕ) : Bool :=
  match checkedAdd start size with
  | some stop => stop ≤ h.stop
  | none => false

/-- A fresh block of a class from the unused part of the heap, which grows if it must. -/
def carve (src : Source σ) (h : Heap σ) (k : ℕ) : ℕ × Heap σ :=
  let size := blockSize k
  let start := roundUp h.bump size
  if h.fits start size then (start, { h with bump := start + size })
  else
    let wanted := max (2 * size) growth
    match src.grow h.source wanted with
    | (none, source) => (0, { h with source })
    | (some new, source) =>
      -- growth that is not contiguous abandons the old tail
      let bump := if new ≠ h.stop then new else h.bump
      let start := roundUp bump size
      (start, { h with source, bump := start + size, stop := new + wanted })

def alloc (src : Source σ) (h : Heap σ) (layout : Layout) : ℕ × Heap σ :=
  match sizeClass layout with
  | some k =>
    let head := h.free k
    if head = 0 then h.carve src k
    else (head, { h with free := Function.update h.free k (h.memory.readWord head) })
  | none =>
    if layout.align > page then (0, h)
    else
      match largeSize layout with
      | none => (0, h)
      | some bytes =>
        let (address, source) := src.map h.source bytes
        (address.getD 0, { h with source })

def dealloc (src : Source σ) (h : Heap σ) (block : ℕ) (layout : Layout) : Heap σ :=
  match sizeClass layout with
  | some k =>
    { h with
      memory := h.memory.writeWord block (h.free k)
      free := Function.update h.free k block }
  | none =>
    match largeSize layout with
    | some bytes => { h with source := src.unmap h.source block bytes }
    | none => h

/-- Resize, staying in place when the new size has the same class. -/
def realloc (src : Source σ) (h : Heap σ) (block : ℕ) (layout : Layout) (newSize : ℕ) : ℕ × Heap σ :=
  match fromSizeLog newSize layout.log with
  | none => (0, h)
  | some newLayout =>
    if (sizeClass layout).isSome ∧ sizeClass layout = sizeClass newLayout then (block, h)
    else
      match h.alloc src newLayout with
      | (0, h) => (0, h)
      | (new, h) =>
        let h := { h with memory := h.memory.copy block new (min layout.size newSize) }
        (new, h.dealloc src block layout)

/-- The unused part of the heap. -/
def unused (h : Heap σ) : List Region :=
  if h.bump < h.stop then [⟨h.bump, h.stop - h.bump⟩] else []

end Heap

/-! ## Runs -/

/-- The memory a layout gets. -/
def layoutSize (layout : Layout) : ℕ :=
  match sizeClass layout with
  | some k => blockSize k
  | none => (largeSize layout).getD 0

/-- The block of an allocation. -/
def block (b : ℕ × Layout) : Region :=
  ⟨b.1, layoutSize b.2⟩

/-- What a source has granted and not taken back: the parts of the heap and the mappings. -/
structure Ledger (σ : Type) where
  grown : σ → List Region
  mapped : σ → List Region

def Ledger.granted {σ : Type} (ledger : Ledger σ) (s : σ) : List Region :=
  ledger.grown s ++ ledger.mapped s

/-- Memory a source may grant: not at null, far enough from the end of the address space for an address
in it to be rounded up to a block, and apart from what it has granted before. -/
structure Fresh (granted : List Region) (r : Region) : Prop where
  nonnull : r.start ≠ 0
  below : r.stop + large ≤ wordLimit
  apart : ∀ o ∈ granted, r.Apart o

/-- A source that grants disjoint regions, and may refuse at any time. -/
structure Source.Honest {σ : Type} (src : Source σ) (ledger : Ledger σ) : Prop where
  grow_some : ∀ s n a s', 0 < n → src.grow s n = (some a, s') → Fresh (ledger.granted s) ⟨a, n⟩ ∧
    ledger.grown s' = ⟨a, n⟩ :: ledger.grown s ∧ ledger.mapped s' = ledger.mapped s
  grow_none : ∀ s n s', src.grow s n = (none, s') → ledger.grown s' = ledger.grown s ∧
    ledger.mapped s' = ledger.mapped s
  map_some : ∀ s n a s', 0 < n → page ∣ n → src.map s n = (some a, s') →
    Fresh (ledger.granted s) ⟨a, n⟩ ∧ page ∣ a ∧
    ledger.grown s' = ledger.grown s ∧ ledger.mapped s' = ⟨a, n⟩ :: ledger.mapped s
  map_none : ∀ s n s', src.map s n = (none, s') → ledger.grown s' = ledger.grown s ∧
    ledger.mapped s' = ledger.mapped s
  unmap : ∀ s a n, ⟨a, n⟩ ∈ ledger.mapped s → ledger.grown (src.unmap s a n) = ledger.grown s ∧
    ledger.mapped (src.unmap s a n) = (ledger.mapped s).erase ⟨a, n⟩

/-- The heap with the blocks that are in use. -/
structure World (σ : Type) where
  heap : Heap σ
  live : List (ℕ × Layout)

inductive Op
  | alloc (layout : Layout)
  | dealloc (address : ℕ) (layout : Layout)
  | realloc (address : ℕ) (layout : Layout) (newSize : ℕ)
  /-- The program writes to its blocks, and memory that is not the heap's changes. -/
  | write (memory : Memory)

variable {σ : Type}

inductive World.Step (src : Source σ) (ledger : Ledger σ) : World σ → Op → World σ → Prop
  | alloc {w : World σ} {layout : Layout} {address : ℕ} {heap : Heap σ}
      (halloc : w.heap.alloc src layout = (address, heap)) (haddress : address ≠ 0) :
      Step src ledger w (.alloc layout) ⟨heap, (address, layout) :: w.live⟩
  | allocFail {w : World σ} {layout : Layout} {heap : Heap σ}
      (halloc : w.heap.alloc src layout = (0, heap)) :
      Step src ledger w (.alloc layout) ⟨heap, w.live⟩
  | dealloc {w : World σ} {address : ℕ} {layout : Layout} (hlive : (address, layout) ∈ w.live) :
      Step src ledger w (.dealloc address layout)
        ⟨w.heap.dealloc src address layout, w.live.erase (address, layout)⟩
  | realloc {w : World σ} {address new newSize : ℕ} {layout newLayout : Layout} {heap : Heap σ}
      (hlive : (address, layout) ∈ w.live) (hlayout : fromSizeLog newSize layout.log = some newLayout)
      (hrealloc : w.heap.realloc src address layout newSize = (new, heap)) (hnew : new ≠ 0) :
      Step src ledger w (.realloc address layout newSize)
        ⟨heap, (new, newLayout) :: w.live.erase (address, layout)⟩
  | reallocFail {w : World σ} {address newSize : ℕ} {layout : Layout} {heap : Heap σ}
      (hlive : (address, layout) ∈ w.live)
      (hrealloc : w.heap.realloc src address layout newSize = (0, heap)) :
      Step src ledger w (.realloc address layout newSize) ⟨heap, w.live⟩
  | write {w : World σ} {memory : Memory}
      (houtside : ∀ x, (∃ r ∈ ledger.granted w.heap.source, r.Has x) →
        (∀ b ∈ w.live, ¬ (block b).Has x) → memory x = w.heap.memory x) :
      Step src ledger w (.write memory) ⟨{ w.heap with memory }, w.live⟩

/-- A new heap over a source that has not granted anything, with any memory. -/
def World.Initial (ledger : Ledger σ) (w : World σ) : Prop :=
  ∃ source memory, ledger.granted source = [] ∧ w = ⟨Heap.new source memory, []⟩

def World.Reachable (src : Source σ) (ledger : Ledger σ) : World σ → Prop :=
  Run.Reachable (World.Initial ledger) (World.Step src ledger)

end SaeOS.Libsaeos
