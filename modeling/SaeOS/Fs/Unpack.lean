import SaeOS.Fs.Initramfs
import SaeOS.Fs.RamFsSpace

/-!
# Unpacking an initramfs

`kernel/src/fs/initramfs.rs`, `unpack`: the entries of an archive are put into a ramfs one after the
other, below a directory. References that `unpack` itself holds for a moment are left out: it lets go of
a file before it takes away the file's entry. Whether the allocator has room for an entry's data is an
argument.
-/

namespace SaeOS.Initramfs

open Fs (Name Space)
open Text

/-- `CpioError`, with what the file system rejects. -/
inductive UnpackError where
  | archive (e : CpioError)
  /-- The filesystem rejected an entry. -/
  | filesystem (e : Errno)

/-- What `unpack` did. -/
structure Unpacked where
  files : ℕ := 0
  bytes : ℕ := 0
  /-- Files whose contents the filesystem refused, with why and their size. -/
  skipped : List (Text × Errno × ℕ) := []

/-- What became of one entry. -/
inductive Outcome where
  | directory
  | written
  | skipped (e : Errno)
  deriving DecidableEq

/-- `Inode::create` on a directory of the ramfs. -/
def create (s : Space) (directory : ℕ) (component : Name) (kind : Fs.InodeKind) :
    Except Errno (ℕ × Space) := do
  Fs.checkName component
  let (ino, fs) ← s.fs.create directory component kind
  return (ino, { s with fs })

/-- `Inode::unlink` on a directory of the ramfs; the file goes with its last reference. -/
def unlink (s : Space) (directory : ℕ) (component : Name) : Space :=
  match s.fs.unlink directory component with
  | .ok fs => { s with fs }.settle (s.fs.entry directory component)
  | .error _ => s

/-- The file that an entry is written to: an existing one is emptied. -/
def openFile (s : Space) (directory : ℕ) (component : Name) : Except Errno (ℕ × Space) :=
  match s.fs.lookup directory component with
  | .ok existing =>
    if s.fs.isDir existing then .error .EISDIR
    else
      match s.fs.truncate existing 0 true with
      | (.error e, _) => .error e
      | (.ok (), fs) => .ok (existing, { s with fs })
  | .error e => if e = .ENOENT then create s directory component .file else .error e

/-- The last component of a file. -/
def unpackFile (s : Space) (directory : ℕ) (component : Name) (data : List UInt8) (room : Bool) :
    Except Errno (Outcome × Space) :=
  match openFile s directory component with
  | .error e => .error e
  | .ok (ino, s) =>
    match s.fs.writeAt ino 0 data room with
    -- not an empty or truncated file that looks real
    | (.error e, fs) => .ok (.skipped e, unlink { s with fs } directory component)
    | (.ok _, fs) => .ok (.written, { s with fs })

/-- A component that is a directory, which is made if it is missing. -/
def enterDirectory (s : Space) (directory : ℕ) (component : Name) : Except Errno (ℕ × Space) :=
  match s.fs.lookup directory component with
  | .ok existing => if s.fs.isDir existing then .ok (existing, s) else .error .ENOTDIR
  | .error e => if e = .ENOENT then create s directory component .directory else .error e

/-- The components of an entry's path, from the first to the last. -/
def unpackEntry (kind : EntryKind) (data : List UInt8) (room : Bool) (s : Space) (directory : ℕ) :
    List Name → Except Errno (Outcome × Space)
  | [] => .ok (.directory, s)
  | component :: components =>
    if components = [] ∧ kind = .file then unpackFile s directory component data room
    else do
      let (directory, s) ← enterDirectory s directory component
      unpackEntry kind data room s directory components

/-- The components of a path. -/
def components (path : Text) : List Name :=
  (path.splitOn '/').map asBytes

def Unpacked.add (unpacked : Unpacked) (entry : Entry) : Outcome → Unpacked
  | .directory => unpacked
  | .written =>
    { unpacked with files := unpacked.files + 1, bytes := unpacked.bytes + entry.data.length }
  | .skipped e =>
    { unpacked with skipped := unpacked.skipped ++ [(entry.path, e, entry.data.length)] }

/-- The loop of `unpack`, over entries with the room for their data. -/
def unpackEntries (root : ℕ) : Space → Unpacked → List (Entry × Bool) →
    Except Errno (Unpacked × Space)
  | s, unpacked, [] => .ok (unpacked, s)
  | s, unpacked, (entry, room) :: entries => do
    let (outcome, s) ← unpackEntry entry.kind entry.data room s root (components entry.path)
    unpackEntries root s (unpacked.add entry outcome) entries

/-- Unpack `archive` below `root`, creating parent directories as needed. The state is that of an answer
without an error; `room` is asked with the number of the entry. -/
def unpack (s : Space) (root : ℕ) (archive : List UInt8) (room : ℕ → Bool) :
    Except UnpackError (Unpacked × Space) :=
  match parse archive with
  | .error e => .error (.archive e)
  | .ok entries =>
    (unpackEntries root s {} (entries.zipIdx.map fun (entry, i) => (entry, room i))).mapError
      .filesystem

end SaeOS.Initramfs
