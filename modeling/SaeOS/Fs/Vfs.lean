import SaeOS.Fs.File
import SaeOS.Fs.RamFsOps

/-!
# Path resolution, mounts and the file API

`fs/vfs.rs` over the file systems that the kernel mounts: ramfs (`fs/ramfs.rs`), and the ones whose
directory never changes (`fs/devfs.rs`, `fs/procfs.rs`). An inode is a number in one of them. Every
operation takes the state and returns its answer with the state after it, also when the answer is an
error. Inodes that nothing refers to any more stay in their store; taking them out is a step of its own
(`RamFs.drop`).
-/

namespace SaeOS.Fs

/-- A path; components are separated by slashes. -/
abbrev Path := List UInt8

/-! ## File systems -/

/-- An inode. -/
structure InodeRef where
  /-- The file system instance (`fs_id`). -/
  fs : ℕ
  ino : ℕ
  deriving DecidableEq

/-- A node of a file system that never changes. A device answers as it does; a handle that its `open`
makes is another node. -/
inductive FixedNode
  | directory (entries : List (Name × ℕ))
  | file
  | device (size : ℕ) (write : ℕ → List UInt8 → Except Errno ℕ)
      (opened : OpenFlags → Except Errno (Option ℕ))

inductive FileSystem
  | ram (fs : RamFs)
  | fixed (node : ℕ → FixedNode)

structure Mount where
  /-- Normalized absolute path. -/
  path : Path
  root : InodeRef

/-- The mounts, the file systems by their instance, and the open files. -/
structure Vfs where
  mounts : List Mount
  fileSystem : ℕ → FileSystem
  files : Files InodeRef

/-- An answer and the state after it. -/
abbrev Outcome (α : Type) := Except Errno α × Vfs

namespace Vfs

variable (vfs : Vfs)

/-- Put a ramfs in the place of one. -/
def setRam (id : ℕ) (fs : RamFs) : Vfs :=
  { vfs with fileSystem := Function.update vfs.fileSystem id (.ram fs) }

/-! ## Inodes -/

def kind (inode : InodeRef) : InodeKind :=
  match vfs.fileSystem inode.fs with
  | .ram fs => if fs.isDir inode.ino then .directory else .file
  | .fixed node =>
    match node inode.ino with
    | .directory _ => .directory
    | .file => .file
    | .device _ _ _ => .charDevice

/-- `stat().size`. -/
def size (inode : InodeRef) : ℕ :=
  match vfs.fileSystem inode.fs with
  | .ram fs =>
    match fs.node inode.ino with
    | some (.file data) => data.length
    | _ => 0
  | .fixed node =>
    match node inode.ino with
    | .device size _ _ => size
    | _ => 0

def lookup (inode : InodeRef) (name : Name) : Except Errno InodeRef :=
  match vfs.fileSystem inode.fs with
  | .ram fs =>
    if fs.isDir inode.ino then (fs.lookup inode.ino name).map (InodeRef.mk inode.fs)
    else .error .ENOTDIR
  | .fixed node =>
    match node inode.ino with
    | .directory entries =>
      match entries.lookup name with
      | some ino => .ok ⟨inode.fs, ino⟩
      | none => .error .ENOENT
    | _ => .error .ENOTDIR

/-- A method that changes a directory of a ramfs; the other directories are read-only, and everything
else is not a directory. -/
def onDirectory {α : Type} (inode : InodeRef) (method : RamFs → Except Errno (α × RamFs)) :
    Outcome α :=
  match vfs.fileSystem inode.fs with
  | .ram fs =>
    if fs.isDir inode.ino then
      match method fs with
      | .ok (answer, fs) => (.ok answer, vfs.setRam inode.fs fs)
      | .error e => (.error e, vfs)
    else (.error .ENOTDIR, vfs)
  | .fixed node =>
    match node inode.ino with
    | .directory _ => (.error .EROFS, vfs)
    | _ => (.error .ENOTDIR, vfs)

/-- `Inode::create`. -/
def createIn (inode : InodeRef) (name : Name) (kind : InodeKind) : Outcome InodeRef :=
  vfs.onDirectory inode fun fs => do
    checkName name
    let (ino, fs) ← fs.create inode.ino name kind
    return (⟨inode.fs, ino⟩, fs)

/-- `Inode::unlink`. -/
def unlinkIn (inode : InodeRef) (name : Name) : Outcome Unit :=
  vfs.onDirectory inode fun fs => (fs.unlink inode.ino name).map (Prod.mk ())

/-- `Inode::rmdir`. -/
def rmdirIn (inode : InodeRef) (name : Name) : Outcome Unit :=
  vfs.onDirectory inode fun fs => (fs.rmdir inode.ino name).map (Prod.mk ())

/-- `Inode::rename` to a directory of the same file system. -/
def renameIn (inode : InodeRef) (old : Name) (target : InodeRef) (new : Name) :
    Option (Outcome Unit) :=
  match vfs.fileSystem inode.fs with
  | .ram fs =>
    match checkName new with
    | .error e => some (.error e, vfs)
    | .ok () => do
      match ← fs.rename ⟨inode.ino, old, target.ino, new⟩ with
      | .ok fs => return (.ok (), vfs.setRam inode.fs fs)
      | .error e => return (.error e, vfs)
  | .fixed node =>
    match node inode.ino with
    | .directory _ => some (.error .EROFS, vfs)
    | _ => some (.error .ENOTDIR, vfs)

/-- `Inode::write_at`. -/
def writeAt (inode : InodeRef) (offset : ℕ) (buf : List UInt8) (room : Bool) : Outcome ℕ :=
  match vfs.fileSystem inode.fs with
  | .ram fs =>
    let (answer, fs) := fs.writeAt inode.ino offset buf room
    (answer, vfs.setRam inode.fs fs)
  | .fixed node =>
    match node inode.ino with
    | .directory _ => (.error .EISDIR, vfs)
    | .file => (.error .EROFS, vfs)
    | .device _ write _ => (write offset buf, vfs)

/-- `Inode::truncate`. -/
def truncate (inode : InodeRef) (size : ℕ) (room : Bool) : Outcome Unit :=
  match vfs.fileSystem inode.fs with
  | .ram fs =>
    let (answer, fs) := fs.truncate inode.ino size room
    (answer, vfs.setRam inode.fs fs)
  | .fixed node =>
    match node inode.ino with
    | .file => (.error .EROFS, vfs)
    | _ => (.error .EINVAL, vfs)

/-- `Inode::open`: a fresh inode for this open file, or the inode itself. -/
def openHook (inode : InodeRef) (flags : OpenFlags) : Except Errno InodeRef :=
  match vfs.fileSystem inode.fs with
  | .ram _ => .ok inode
  | .fixed node =>
    match node inode.ino with
    | .device _ _ opened => (opened flags).map fun handle => ⟨inode.fs, handle.getD inode.ino⟩
    | _ => .ok inode

/-! ## Paths -/

def join (parent : Path) (name : Name) : Path :=
  if parent = [slash] then slash :: name else parent ++ slash :: name

def mountedRoot (path : Path) : Option InodeRef :=
  (vfs.mounts.find? (·.path = path)).map Mount.root

def isMountPoint (path : Path) : Bool :=
  vfs.mounts.any (·.path = path)

/-- The directories that a walk has entered: the last one, and those before it. -/
structure Stack where
  top : Path × InodeRef
  below : List (Path × InodeRef)

/-- One component of a walk. -/
def walkComponent (stack : Stack) (component : Name) : Except Errno Stack :=
  if component = [] ∨ component = [dot] then .ok stack
  else if component = [dot, dot] then
    match stack.below with
    | [] => .ok stack
    | top :: below => .ok ⟨top, below⟩
  else if component.length > nameMax then .error .ENAMETOOLONG
  else if vfs.kind stack.top.2 ≠ .directory then .error .ENOTDIR
  else do
    let childPath := join stack.top.1 component
    -- a mount point must still exist underneath
    let child ← vfs.lookup stack.top.2 component
    return ⟨(childPath, (vfs.mountedRoot childPath).getD child), stack.top :: stack.below⟩

/-- Resolve `path` to an inode and its normalized path; the empty path is the root. -/
def walkFromRoot (path : Path) : Except Errno (InodeRef × Path) :=
  match vfs.mountedRoot [slash] with
  | none => .error .ENOENT
  | some root => do
    let stack ← (path.splitOn slash).foldlM vfs.walkComponent ⟨([slash], root), []⟩
    let (normalized, inode) := stack.top
    if path.getLast? = some slash ∧ vfs.kind inode ≠ .directory then throw .ENOTDIR
    return (inode, normalized)

def walk (path : Path) : Except Errno (InodeRef × Path) :=
  if path = [] then .error .ENOENT else vfs.walkFromRoot path

/-- A directory plus the final name of a path. -/
structure Parent where
  directory : InodeRef
  name : Name
  /-- Normalized path of the entry itself. -/
  path : Path

/-- What stands before and behind the last slash. -/
def splitLast (path : Path) : Path × Name :=
  match path.reverse.findIdx? (· == slash) with
  | some back => (path.take (path.length - 1 - back), path.drop (path.length - back))
  | none => ([], path)

/-- Resolve all but the last component. -/
def parent (path : Path) : Except Errno Parent :=
  if path = [] then .error .ENOENT
  else
    let (directoryPath, name) := splitLast (path.rdropWhile (· == slash))
    if name = [] then .error .EBUSY
    else if name = [dot] ∨ name = [dot, dot] then .error .EINVAL
    else if name.length > nameMax then .error .ENAMETOOLONG
    else do
      let (directory, normalized) ← vfs.walkFromRoot directoryPath
      if vfs.kind directory ≠ .directory then throw .ENOTDIR
      return ⟨directory, name, join normalized name⟩

/-! ## The file API -/

/-- The inode that `open` works on: the one that is there, or a new file. -/
def openInode (path : Path) (flags : OpenFlags) : Outcome InodeRef :=
  match vfs.walk path with
  | .ok (inode, _) =>
    if flags.contains (OpenFlags.create.or .excl) then (.error .EEXIST, vfs) else (.ok inode, vfs)
  | .error e =>
    if e = .ENOENT ∧ flags.contains .create then
      match vfs.parent path with
      | .error e => (.error e, vfs)
      | .ok parent =>
        match vfs.createIn parent.directory parent.name .file with
        | (.error e, vfs) =>
          -- lost a race with another creator
          if e = .EEXIST ∧ ¬ flags.contains .excl then (vfs.lookup parent.directory parent.name, vfs)
          else (.error e, vfs)
        | created => created
    else (.error e, vfs)

/-- What `open` does with the inode before it is installed, by its kind. -/
def prepare (inode : InodeRef) (flags : OpenFlags) : Outcome Unit :=
  match vfs.kind inode with
  | .directory =>
    if flags.contains .write ∨ flags.contains .trunc then (.error .EISDIR, vfs) else (.ok (), vfs)
  | .file =>
    if flags.contains .directory then (.error .ENOTDIR, vfs)
    else if flags.contains .trunc ∧ flags.contains .write then vfs.truncate inode 0 true
    else (.ok (), vfs)
  | .charDevice => if flags.contains .directory then (.error .ENOTDIR, vfs) else (.ok (), vfs)

/-- Install a new open file at the lowest free descriptor. -/
def install (inode : InodeRef) (flags : OpenFlags) : Outcome ℕ :=
  match vfs.files.table.insert vfs.files.next with
  | .error e => (.error e, vfs)
  | .ok (fd, table) =>
    let file := Function.update vfs.files.file vfs.files.next (some ⟨inode, flags, 0⟩)
    (.ok fd, { vfs with files := ⟨table, file, vfs.files.next + 1⟩ })

def «open» (path : Path) (flags : OpenFlags) : Outcome ℕ :=
  if ¬ flags.contains .read ∧ ¬ flags.contains .write then (.error .EINVAL, vfs)
  else
    match vfs.openInode path flags with
    | (.error e, vfs) => (.error e, vfs)
    | (.ok inode, vfs) =>
      match vfs.prepare inode flags with
      | (.error e, vfs) => (.error e, vfs)
      | (.ok (), vfs) =>
        match vfs.openHook inode flags with
        | .error e => (.error e, vfs)
        | .ok inode => vfs.install inode flags

/-- Store through the lock of an open file's offset. -/
def setOffset (id offset : ℕ) : Vfs :=
  { vfs with files := vfs.files.setOffset id offset }

def write (fd : ℕ) (buf : List UInt8) (room : Bool) : Outcome ℕ :=
  match vfs.files.get fd with
  | .error e => (.error e, vfs)
  | .ok (id, file) =>
    if ¬ file.flags.contains .write then (.error .EBADF, vfs)
    else
      let offset := if file.flags.contains .append then vfs.size file.inode else file.offset
      -- an appending file moves to its end before it is written
      let vfs := if file.flags.contains .append then vfs.setOffset id offset else vfs
      match vfs.writeAt file.inode offset buf room with
      | (.error e, vfs) => (.error e, vfs)
      | (.ok count, vfs) => (.ok count, vfs.setOffset id (offset + count))

def ftruncate (fd size : ℕ) (room : Bool) : Outcome Unit :=
  match vfs.files.get fd with
  | .error e => (.error e, vfs)
  | .ok (_, file) =>
    if ¬ file.flags.contains .write then (.error .EBADF, vfs)
    else
      match vfs.kind file.inode with
      | .directory => (.error .EISDIR, vfs)
      | .charDevice => (.error .EINVAL, vfs)
      | .file => vfs.truncate file.inode size room

def mkdir (path : Path) : Outcome Unit :=
  match vfs.parent path with
  | .error e => (.error (if e = .EBUSY ∨ e = .EINVAL then .EEXIST else e), vfs)
  | .ok parent =>
    let (answer, vfs) := vfs.createIn parent.directory parent.name .directory
    (answer.map fun _ => (), vfs)

def unlink (path : Path) : Outcome Unit :=
  match vfs.parent path with
  | .error e => (.error (if e = .EBUSY then .EISDIR else e), vfs)
  | .ok parent =>
    if vfs.isMountPoint parent.path then (.error .EBUSY, vfs)
    else vfs.unlinkIn parent.directory parent.name

def rmdir (path : Path) : Outcome Unit :=
  match vfs.parent path with
  | .error e => (.error e, vfs)
  | .ok parent =>
    if vfs.isMountPoint parent.path then (.error .EBUSY, vfs)
    else vfs.rmdirIn parent.directory parent.name

/-- `rename`; there is no answer if the walk along the parent links does not end. -/
def rename (old new : Path) : Option (Outcome Unit) :=
  match vfs.parent old with
  | .error e => some (.error e, vfs)
  | .ok source =>
    match vfs.parent new with
    | .error e => some (.error e, vfs)
    | .ok target =>
      if vfs.isMountPoint source.path ∨ vfs.isMountPoint target.path then some (.error .EBUSY, vfs)
      else if source.directory.fs ≠ target.directory.fs then some (.error .EXDEV, vfs)
      else vfs.renameIn source.directory source.name target.directory target.name

end Vfs

end SaeOS.Fs
