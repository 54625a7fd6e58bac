import SaeOS.Mm.Paging

/-!
# Page tables in memory

`map_page_in_root`, `rollback_tables` and `unmap_page_in_root` of `mm/paging.rs` over the memory that
the tables lie in. A frame that holds a table is 512 entries, and an entry is an address and the
bits around it; whether it leads to a table, maps a huge page or maps a page is read off its bits at
every level, as the code does. So trees with huge pages are covered, and tables are found, filled,
unlinked and given back entry by entry.

* `mapPageInRoot` creates the tables that are missing on the way and remembers which ones it
  created; `rollbackTables` unlinks these again, the deepest first.
* `unmapPageInRoot` clears the entry of a page and then, from below, every table without a present
  entry.

Which frame `alloc_table` gets, or whether it gets one, is up to the `Pool`.
-/

namespace SaeOS.PageTree

open Frame Paging

/-- The bits of an entry around its address: `PRESENT`, `WRITABLE`, `USER`, `PWT`, `PCD`, `HUGE`,
`COPY_ON_WRITE` and `NO_EXECUTE`. -/
structure Bits where
  present : Bool := false
  writable : Bool := false
  user : Bool := false
  writeThrough : Bool := false
  cacheDisable : Bool := false
  huge : Bool := false
  copyOnWrite : Bool := false
  noExecute : Bool := false
  deriving DecidableEq, Repr

/-- `USER_TABLE`: an intermediate entry is permissive, the leaf alone decides. -/
def userTable : Bits := { present := true, writable := true, user := true }

/-- A table entry: what `ADDRESS_MASK` leaves of it, and its bits. All of it is zero by default. -/
structure Entry where
  frame : ℕ := 0
  bits : Bits := {}
  deriving DecidableEq, Repr

/-- `AddressSpaceError`, with the one for a huge page on the way. -/
inductive EditError
  | space (error : AddressSpaceError)
  | hugePage
  deriving DecidableEq, Repr

/-- The entries of every frame that is used as a table, and the frame allocator. -/
structure Machine where
  mem : ℕ → ℕ → Entry
  pool : Pool

/-- The slot of an address in the table at depth `d`: 0 is the PML4, 3 the page table. -/
def index (virtualAddress d : ℕ) : ℕ :=
  virtualAddress / 2 ^ (39 - 9 * d) % tableSlots

namespace Machine

/-- Store an entry. -/
def write (s : Machine) (table i : ℕ) (entry : Entry) : Machine :=
  { s with mem := Function.update s.mem table (Function.update (s.mem table) i entry) }

/-- `free_frame`. -/
def free (s : Machine) (frame : ℕ) : Machine :=
  { s with pool := s.pool.freeFrame frame }

/-- `alloc_table`: a frame of zeros. -/
def allocTable (s : Machine) : Option ℕ × Machine :=
  match s.pool.allocFrame with
  | (none, pool) => (none, { s with pool })
  | (some f, pool) => (some f, { mem := Function.update s.mem f fun _ => {}, pool })

/-- `table_empty`. -/
def tableEmpty (s : Machine) (table : ℕ) : Bool :=
  (List.range tableSlots).all fun i => !(s.mem table i).bits.present

/-- A new table in a slot that has none. Whether there had to be one is remembered; `none` is
exhaustion. -/
def ensureTable (s : Machine) (table i : ℕ) : Option Bool × Machine :=
  if (s.mem table i).bits.present then (some false, s)
  else
    match s.allocTable with
    | (none, s) => (none, s)
    | (some f, s) => (some true, s.write table i ⟨f, userTable⟩)

/-- Unlink the table in a slot and give its frame back. -/
def dropTable (s : Machine) (table i : ℕ) : Machine :=
  (s.write table i {}).free (s.mem table i).frame

/-- `rollback_tables`. -/
def rollbackTables (s : Machine) (root virtualAddress : ℕ)
    (pml4Created pdptCreated pdCreated : Bool) : Machine :=
  let s :=
    if pdCreated then
      let pdpt := (s.mem root (index virtualAddress 0)).frame
      let pd := (s.mem pdpt (index virtualAddress 1)).frame
      s.dropTable pd (index virtualAddress 2)
    else s
  let s :=
    if pdptCreated then
      let pdpt := (s.mem root (index virtualAddress 0)).frame
      s.dropTable pdpt (index virtualAddress 1)
    else s
  if pml4Created then s.dropTable root (index virtualAddress 0) else s

/-- `map_page_in_root`. -/
def mapPageInRoot (s : Machine) (root virtualAddress physical : ℕ) (flags : Bits) :
    Except EditError Unit × Machine :=
  match s.ensureTable root (index virtualAddress 0) with
  | (none, s) => (.error (.space .outOfFrames), s)
  | (some pml4Created, s) =>
    let pdpt := (s.mem root (index virtualAddress 0)).frame
    if (s.mem pdpt (index virtualAddress 1)).bits.huge then
      (.error .hugePage, s.rollbackTables root virtualAddress pml4Created false false)
    else
      match s.ensureTable pdpt (index virtualAddress 1) with
      | (none, s) =>
        (.error (.space .outOfFrames),
          s.rollbackTables root virtualAddress pml4Created false false)
      | (some pdptCreated, s) =>
        let pd := (s.mem pdpt (index virtualAddress 1)).frame
        if (s.mem pd (index virtualAddress 2)).bits.huge then
          (.error .hugePage, s.rollbackTables root virtualAddress pml4Created pdptCreated false)
        else
          match s.ensureTable pd (index virtualAddress 2) with
          | (none, s) =>
            (.error (.space .outOfFrames),
              s.rollbackTables root virtualAddress pml4Created pdptCreated false)
          | (some pdCreated, s) =>
            let pt := (s.mem pd (index virtualAddress 2)).frame
            if (s.mem pt (index virtualAddress 3)).bits.present then
              (.error (.space .alreadyMapped),
                s.rollbackTables root virtualAddress pml4Created pdptCreated pdCreated)
            else (.ok (), s.write pt (index virtualAddress 3) ⟨physical, flags⟩)

end Machine

/-- `table_from_entry`. -/
def tableFromEntry (entry : Entry) : Except EditError ℕ :=
  if entry.bits.present = false then .error (.space .notMapped)
  else if entry.bits.huge then .error .hugePage
  else .ok entry.frame

namespace Machine

/-- The tables that `unmap_page_in_root` looks through: PDPT, page directory, page table. -/
def tablesTo (s : Machine) (root virtualAddress : ℕ) : Except EditError (ℕ × ℕ × ℕ) := do
  let pdpt ← tableFromEntry (s.mem root (index virtualAddress 0))
  let pd ← tableFromEntry (s.mem pdpt (index virtualAddress 1))
  let pt ← tableFromEntry (s.mem pd (index virtualAddress 2))
  return (pdpt, pd, pt)

/-- The end of `unmap_page_in_root`: give back the tables that have become empty, from below. -/
def releaseTables (s : Machine) (root virtualAddress pdpt pd pt : ℕ) : Machine :=
  if s.tableEmpty pt then
    let s := (s.free pt).write pd (index virtualAddress 2) {}
    if s.tableEmpty pd then
      let s := (s.free pd).write pdpt (index virtualAddress 1) {}
      if s.tableEmpty pdpt then (s.free pdpt).write root (index virtualAddress 0) {} else s
    else s
  else s

/-- `unmap_page_in_root`. -/
def unmapPageInRoot (s : Machine) (root virtualAddress : ℕ) : Except EditError ℕ × Machine :=
  match validateUserMapping virtualAddress 0 .userRead with
  | .error error => (.error (.space error), s)
  | .ok () =>
    match s.tablesTo root virtualAddress with
    | .error error => (.error error, s)
    | .ok (pdpt, pd, pt) =>
      if (s.mem pt (index virtualAddress 3)).bits.present = false then
        (.error (.space .notMapped), s)
      else
        (.ok (s.mem pt (index virtualAddress 3)).frame,
          (s.write pt (index virtualAddress 3) {}).releaseTables root virtualAddress pdpt pd pt)

end Machine

end SaeOS.PageTree
