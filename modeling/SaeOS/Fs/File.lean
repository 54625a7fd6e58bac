import SaeOS.Fs.Inode

/-!
# Open files and descriptor tables

`fs/file.rs`: an open file description has an inode, its flags and an offset, and is shared by every
descriptor that refers to it. The descriptions are a store under numbers, and the table's slots hold
these numbers, so that sharing is visible; the type of inodes is left open.
-/

namespace SaeOS.Fs

/-- `open` flags. -/
structure OpenFlags where
  bits : UInt32
  deriving DecidableEq

namespace OpenFlags

def read : OpenFlags := ⟨(1 : UInt32) <<< 0⟩
def write : OpenFlags := ⟨(1 : UInt32) <<< 1⟩
/-- Create the file if it does not exist. -/
def create : OpenFlags := ⟨(1 : UInt32) <<< 2⟩
/-- With `create`: fail if it exists. -/
def excl : OpenFlags := ⟨(1 : UInt32) <<< 3⟩
/-- Truncate a regular file opened for writing. -/
def trunc : OpenFlags := ⟨(1 : UInt32) <<< 4⟩
/-- Every write goes to the current end of file. -/
def append : OpenFlags := ⟨(1 : UInt32) <<< 5⟩
/-- Fail unless the path is a directory. -/
def directory : OpenFlags := ⟨(1 : UInt32) <<< 6⟩

def contains (flags other : OpenFlags) : Bool :=
  flags.bits &&& other.bits = other.bits

/-- `|`. -/
def or (flags other : OpenFlags) : OpenFlags :=
  ⟨flags.bits ||| other.bits⟩

end OpenFlags

inductive Whence
  | set
  | current
  | «end»
  deriving DecidableEq

/-- An open file description. -/
structure OpenFile (ι : Type*) where
  inode : ι
  flags : OpenFlags
  offset : ℕ

/-- Most descriptors a process may hold open. -/
def maxFds : ℕ := 256

structure FileTable where
  slots : List (Option ℕ)
  deriving DecidableEq

namespace FileTable

/-- Install `file` at the lowest free descriptor. -/
def insert (table : FileTable) (file : ℕ) : Except Errno (ℕ × FileTable) :=
  match table.slots.findIdx? (·.isNone) with
  | some index => .ok (index, ⟨table.slots.set index (some file)⟩)
  | none =>
    if table.slots.length ≥ maxFds then .error .EMFILE
    else .ok (table.slots.length, ⟨table.slots ++ [some file]⟩)

def get (table : FileTable) (fd : ℕ) : Except Errno ℕ :=
  match table.slots[fd]? with
  | some (some file) => .ok file
  | _ => .error .EBADF

/-- Take the file out of its slot; the table then ends at the last descriptor in use. -/
def remove (table : FileTable) (fd : ℕ) : Except Errno (ℕ × FileTable) :=
  match table.slots[fd]? with
  | some (some file) => .ok (file, ⟨(table.slots.set fd none).rdropWhile Option.isNone⟩)
  | _ => .error .EBADF

def openCount (table : FileTable) : ℕ :=
  table.slots.countP Option.isSome

/-- Another descriptor, the lowest free one, for the same open file. -/
def dup (table : FileTable) (fd : ℕ) : Except Errno (ℕ × FileTable) :=
  match table.get fd with
  | .error e => .error e
  | .ok file => table.insert file

/-- Make `new` refer to the same open file as `old`, closing whatever it referred to. -/
def dup2 (table : FileTable) (old new : ℕ) : Except Errno (ℕ × FileTable) :=
  match table.get old with
  | .error e => .error e
  | .ok file =>
    if old = new then .ok (new, table)
    else if new ≥ maxFds then .error .EBADF
    else
      -- nothing is added where the slots reach past `new`
      let slots := table.slots ++ List.replicate (new + 1 - table.slots.length) none
      .ok (new, ⟨slots.set new (some file)⟩)

/-- The child's table: the same open files at the same descriptors. -/
def fork (table : FileTable) : FileTable :=
  table

end FileTable

/-- A process's descriptors and the open files of the system. -/
structure Files (ι : Type*) where
  table : FileTable
  file : ℕ → Option (OpenFile ι)
  /-- The number of the next one. -/
  next : ℕ

namespace Files

variable {ι : Type*}

/-- The open file that a descriptor refers to, with its number. -/
def get (files : Files ι) (fd : ℕ) : Except Errno (ℕ × OpenFile ι) :=
  match files.table.get fd with
  | .error e => .error e
  | .ok id =>
    match files.file id with
    | some file => .ok (id, file)
    | none => .error .EBADF

/-- Store through the offset's lock. -/
def setOffset (files : Files ι) (id offset : ℕ) : Files ι :=
  let moved := (files.file id).map fun file => { file with offset }
  { files with file := Function.update files.file id moved }

variable {files : Files ι} {fd id offset : ℕ} {file : OpenFile ι}

theorem get_eq_ok (h : files.get fd = .ok (id, file)) :
    files.table.get fd = .ok id ∧ files.file id = some file := by
  unfold get at h
  split at h
  · contradiction
  · rename_i id' hid
    split at h
    · rename_i file' hfile
      obtain ⟨rfl, rfl⟩ := Prod.mk.inj (Except.ok.inj h)
      exact ⟨hid, hfile⟩
    · contradiction

/-- Every descriptor of the open file sees its new offset. -/
theorem get_setOffset (h : files.get fd = .ok (id, file)) :
    (files.setOffset id offset).get fd = .ok (id, { file with offset }) := by
  obtain ⟨htable, hfile⟩ := get_eq_ok h
  rw [get, setOffset]
  dsimp only
  rw [htable, hfile]
  dsimp only
  rw [Function.update_self, Option.map_some]

end Files

end SaeOS.Fs
