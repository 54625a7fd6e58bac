import SaeOS.Fs.RamFsOps
import SaeOS.Fs.RamFsTree
import SaeOS.Lib.Run

/-!
# Space accounting of a ramfs

A mounted ramfs together with the references that its users hold: open files and directories, counted
for each inode. The entries of directories are the other references, and the mount keeps the root. Users
call whole operations in any order; an inode whose last reference an operation takes away is dropped at
its end, and a dropped file gives its bytes back (`Drop for RamFile`).

`used` is the bytes of all files that are linked or open. No directory lists every such file: an open
file may be in no directory any more.
-/

namespace SaeOS.Fs

open RamFs (Rename)

namespace RamFs

variable (fs : RamFs)

/-- Whether a directory lists the inode. -/
def linked (ino : ℕ) : Bool :=
  (List.range fs.nextIno).any fun d => (fs.entries d).toList.any (·.2 == ino)

/-- The length of a file; 0 for anything else. -/
def fileLength (ino : ℕ) : ℕ :=
  match fs.node ino with
  | some (.file data) => data.length
  | _ => 0

/-- What `resize` hands to `release`, with the counter at that moment. -/
def resizeReleased (data : List UInt8) (newLength : ℕ) (room : Bool) : List (ℕ × ℕ) :=
  if newLength > data.length then
    match fs.reserve (newLength - data.length) with
    | .error _ => []
    | .ok fs => if room then [] else [(newLength - data.length, fs.used)]
  else [(data.length - newLength, fs.used)]

end RamFs

/-- A mounted ramfs and the number of references that users hold to each inode. -/
structure Space where
  fs : RamFs
  held : ℕ → ℕ

namespace Space

variable (s : Space)

/-- A fresh mount. -/
def mount (limit : ℕ) : Space where
  fs := .withLimit limit
  held _ := 0

/-- The inode is linked, open, or the root. -/
def live (ino : ℕ) : Bool :=
  ino == RamFs.rootIno || 0 < s.held ino || s.fs.linked ino

/-- The end of an operation that took a reference from `lost`. -/
def settle (lost : Option ℕ) : Space :=
  match lost with
  | none => s
  | some ino => if s.live ino then s else { s with fs := s.fs.drop ino }

inductive Op
  /-- `lookup`, and keep what it finds. -/
  | acquire (dir : ℕ) (name : Name)
  /-- One more reference to an inode that is held. -/
  | retain (ino : ℕ)
  | release (ino : ℕ)
  | create (dir : ℕ) (name : Name) (kind : InodeKind)
  | writeAt (ino offset : ℕ) (buf : List UInt8) (room : Bool)
  | truncate (ino size : ℕ) (room : Bool)
  | unlink (dir : ℕ) (name : Name)
  | rmdir (dir : ℕ) (name : Name)
  | rename (r : Rename)

/-- One more reference to `ino`. -/
def hold (ino : ℕ) : Space :=
  { s with held := Function.update s.held ino (s.held ino + 1) }

/-- The answer of an operation, the state up to its last reference, and the inode that lost one. There is
none if the operation cannot be called: its receiver is no directory, or not held. -/
def apply : Op → Option (Except Errno Unit × Space × Option ℕ)
  | .acquire dir name =>
    if s.fs.isDir dir then
      match s.fs.lookup dir name with
      | .error e => some (.error e, s, none)
      | .ok ino => some (.ok (), s.hold ino, none)
    else none
  | .retain ino => if 0 < s.held ino then some (.ok (), s.hold ino, none) else none
  | .release ino =>
    if 0 < s.held ino then
      some (.ok (), { s with held := Function.update s.held ino (s.held ino - 1) }, some ino)
    else none
  | .create dir name kind =>
    if s.fs.isDir dir then
      match checkName name with
      | .error e => some (.error e, s, none)
      | .ok () =>
        match s.fs.create dir name kind with
        | .error e => some (.error e, s, none)
        | .ok (ino, fs) => some (.ok (), { s with fs }.hold ino, none)
    else none
  | .writeAt ino offset buf room =>
    let (answer, fs) := s.fs.writeAt ino offset buf room
    some (answer.map fun _ => (), { s with fs }, none)
  | .truncate ino size room =>
    let (answer, fs) := s.fs.truncate ino size room
    some (answer, { s with fs }, none)
  | .unlink dir name =>
    if s.fs.isDir dir then
      match s.fs.unlink dir name with
      | .error e => some (.error e, s, none)
      | .ok fs => some (.ok (), { s with fs }, s.fs.entry dir name)
    else none
  | .rmdir dir name =>
    if s.fs.isDir dir then
      match s.fs.rmdir dir name with
      | .error e => some (.error e, s, none)
      | .ok fs => some (.ok (), { s with fs }, s.fs.entry dir name)
    else none
  | .rename r =>
    if s.fs.isDir r.self ∧ s.fs.isDir r.target then
      match checkName r.new with
      | .error e => some (.error e, s, none)
      | .ok () => do
        match ← s.fs.rename r with
        | .error e => return (.error e, s, none)
        | .ok fs => return (.ok (), { s with fs }, s.fs.entry r.target r.new)
    else none

/-- One whole operation. -/
def Step (s : Space) (op : Op) (s' : Space) : Prop :=
  ∃ answer detached lost, s.apply op = some (answer, detached, lost) ∧ s' = detached.settle lost

/-- What the drop of `lost` hands to `release`, with the counter at that moment. -/
def dropReleased (lost : Option ℕ) : List (ℕ × ℕ) :=
  match lost with
  | none => []
  | some ino =>
    if s.live ino then []
    else
      match s.fs.node ino with
      | some (.file data) => [(data.length, s.fs.used)]
      | _ => []

/-- What an operation hands to `release`, with the counter at each moment. -/
def released (op : Op) : List (ℕ × ℕ) :=
  let resized :=
    match op with
    | .writeAt ino offset buf room =>
      match s.fs.node ino with
      | some (.file data) =>
        if offset + buf.length < 2 ^ 64 ∧ offset + buf.length > data.length then
          s.fs.resizeReleased data (offset + buf.length) room
        else []
      | _ => []
    | .truncate ino size room =>
      match s.fs.node ino with
      | some (.file data) => if size < 2 ^ 64 then s.fs.resizeReleased data size room else []
      | _ => []
    | _ => []
  match s.apply op with
  | some (_, detached, lost) => resized ++ detached.dropReleased lost
  | none => []

end Space

end SaeOS.Fs
