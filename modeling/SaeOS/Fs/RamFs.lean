import SaeOS.Fs.Inode

/-!
# The in-memory file system

The inodes of `fs/ramfs.rs` and the sections that run with directories' entry maps locked. A file
system is a store of inodes under their numbers: an inode is in the store as long as something
refers to it, so a directory's weak parent link can be followed exactly when its parent is in the
store.

`rmdir` and `rename` take further locks on the way, so they are cut where they do: what they read
before the last lock is a function of its own, and so is what they do after it.
-/

namespace SaeOS.Fs

/-- A directory. -/
structure RamDir where
  parent : Option ℕ := none
  entries : Entries := ∅
  dead : Bool := false

/-- An inode. -/
inductive Node
  | file (data : List UInt8)
  | dir (directory : RamDir)

/-- A ramfs mount. -/
structure RamFs where
  nextIno : ℕ
  used : ℕ
  limit : ℕ
  node : ℕ → Option Node

namespace Node

/-- `as_any().downcast_ref::<RamDir>()`. -/
def asDir : Node → Option RamDir
  | file _ => none
  | dir d => some d

end Node

namespace RamFs

variable (fs : RamFs)

/-- The root directory's inode number. -/
def rootIno : ℕ := 1

/-- `with_limit`: a file system with an empty root directory. -/
def withLimit (limit : ℕ) : RamFs where
  nextIno := 2
  used := 0
  limit
  node := Function.update (fun _ => none) rootIno (some (.dir {}))

/-- The directory with this number. -/
def dir (ino : ℕ) : Option RamDir :=
  (fs.node ino).bind Node.asDir

/-- The entry map of a directory; empty for anything else. -/
def entries (ino : ℕ) : Entries :=
  match fs.dir ino with
  | some d => d.entries
  | none => ∅

/-- `is_dead`. -/
def isDead (ino : ℕ) : Bool :=
  match fs.dir ino with
  | some d => d.dead
  | none => false

/-- The parent of a directory, if its weak link can be upgraded. -/
def up (ino : ℕ) : Option ℕ :=
  match fs.dir ino with
  | some d => d.parent.filter fun p => (fs.node p).isSome
  | none => none

/-- Whether the inode is a directory. -/
def isDir (ino : ℕ) : Bool :=
  (fs.dir ino).isSome

/-- Write an inode. -/
def setNode (ino : ℕ) (node : Option Node) : RamFs :=
  { fs with node := Function.update fs.node ino node }

/-- Change a directory. -/
def setDir (ino : ℕ) (f : RamDir → RamDir) : RamFs :=
  match fs.dir ino with
  | some d => fs.setNode ino (some (.dir (f d)))
  | none => fs

/-- Change the entry map of a directory. -/
def mapEntries (ino : ℕ) (f : Entries → Entries) : RamFs :=
  fs.setDir ino fun d => { d with entries := f d.entries }

/-- Mark a directory dead. -/
def markDead (ino : ℕ) : RamFs :=
  fs.setDir ino fun d => { d with dead := true }

/-- Point the parent link of a directory to `parent`; a file has none. -/
def setParent (ino parent : ℕ) : RamFs :=
  fs.setDir ino fun d => { d with parent := some parent }

/-! ## Sections under one lock -/

/-- `lookup`. -/
def lookup (ino : ℕ) (name : Name) : Except Errno ℕ :=
  match (fs.entries ino)[name]? with
  | some child => .ok child
  | none => .error .ENOENT

/-- A new inode of this kind, in directory `ino`. -/
def newNode (ino : ℕ) : InodeKind → Except Errno Node
  | .file => .ok (.file [])
  | .directory => .ok (.dir { parent := some ino })
  | .charDevice => .error .EINVAL

/-- `create`, after its name check. -/
def create (ino : ℕ) (name : Name) (kind : InodeKind) : Except Errno (ℕ × RamFs) :=
  if fs.isDead ino then .error .ENOENT
  else if (fs.entries ino)[name]?.isSome then .error .EEXIST
  else
    match newNode ino kind with
    | .error e => .error e
    | .ok node =>
      let fs' := { fs with nextIno := fs.nextIno + 1 }.setNode fs.nextIno (some node)
      .ok (fs.nextIno, fs'.mapEntries ino (·.insert name fs.nextIno))

/-- `unlink`. -/
def unlink (ino : ℕ) (name : Name) : Except Errno RamFs :=
  match (fs.entries ino)[name]? with
  | none => .error .ENOENT
  | some child =>
    if fs.isDir child then .error .EISDIR
    else .ok (fs.mapEntries ino (·.erase name))

/-! ## Removing a directory -/

/-- `rmdir` up to the lock on the child. -/
def rmdirChild (ino : ℕ) (name : Name) : Except Errno ℕ :=
  match (fs.entries ino)[name]? with
  | none => .error .ENOENT
  | some child => if fs.isDir child then .ok child else .error .ENOTDIR

/-- `rmdir` with the child's map locked. -/
def rmdirLocked (ino : ℕ) (name : Name) (child : ℕ) : Except Errno RamFs :=
  if (fs.entries child).isEmpty then
    .ok ((fs.markDead child).mapEntries ino (·.erase name))
  else .error .ENOTEMPTY

/-! ## Renaming -/

/-- The arguments of `rename`. -/
structure Rename where
  self : ℕ
  old : Name
  target : ℕ
  new : Name
  deriving DecidableEq, Repr

/-- `rename` with both entry maps locked, up to the lock on the replaced directory: the entry to
move and, if there is one, the directory to replace. -/
def renameSource (r : Rename) : Except Errno (ℕ × Option ℕ) :=
  match (fs.entries r.self)[r.old]? with
  | none => .error .ENOENT
  | some source =>
    match (fs.entries r.target)[r.new]? with
    | none => .ok (source, none)
    | some existing =>
      match fs.isDir source, fs.isDir existing with
      | true, true => if existing = r.self then .error .ENOTEMPTY else .ok (source, some existing)
      | true, false => .error .ENOTDIR
      | false, true => .error .EISDIR
      | false, false => .ok (source, none)

/-- The end of `rename`: put the entry in its new place and take it from the old one. -/
def moveEntry (r : Rename) (source : ℕ) : RamFs :=
  ((fs.mapEntries r.target (·.insert r.new source)).mapEntries r.self (·.erase r.old)).setParent
    source r.target

/-- `rename` once every lock is taken. -/
def renameLocked (r : Rename) (source : ℕ) (replaced : Option ℕ) : Except Errno RamFs :=
  match replaced with
  | none => .ok (fs.moveEntry r source)
  | some existing =>
    if (fs.entries existing).isEmpty then
      .ok ((fs.markDead existing).moveEntry r source)
    else .error .ENOTEMPTY

/-- The last reference to an inode goes. -/
def drop (ino : ℕ) : RamFs :=
  match fs.node ino with
  | some (.file data) => { fs.setNode ino none with used := fs.used - data.length }
  | _ => fs.setNode ino none

end RamFs

end SaeOS.Fs
