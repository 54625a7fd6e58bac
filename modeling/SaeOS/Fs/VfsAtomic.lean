import SaeOS.Fs.Vfs
import SaeOS.Lib.Text

/-!
# What a failed call leaves behind

The calls of the VFS that change something, and the state after each answer. A failing method of an
inode leaves the state as it was; what is left to find is a call that fails after a method has
succeeded, or after the offset has moved.
-/

namespace SaeOS.Fs

/-! ## Failing methods -/

namespace RamFs

variable {fs : RamFs}

theorem resize_grow_error_iff (data : List UInt8) {buf : List UInt8} {room : Bool}
    (h : buf ≠ []) :
    (∃ e fs', fs.resize data (data.length + buf.length) room = (.error e, fs')) ↔
      room = false ∨ 2 ^ 64 ≤ fs.used + buf.length ∨ fs.limit < fs.used + buf.length := by
  have hlength := List.length_pos_iff.mpr h
  have hgrow : data.length + buf.length - data.length = buf.length := by omega
  simp only [resize, hgrow, if_pos (show data.length + buf.length > data.length by omega),
    reserve]
  by_cases hreserve : fs.used + buf.length < 2 ^ 64 ∧ fs.used + buf.length ≤ fs.limit
  · simp only [if_pos hreserve]
    cases room with
    | true => simp; omega
    | false => simp
  · simp only [if_neg hreserve]
    refine ⟨fun _ => .inr ?_, fun _ => ⟨_, _, rfl⟩⟩
    omega

end RamFs

namespace Vfs

variable {vfs vfs' : Vfs} {e : Errno} {inode : InodeRef}

theorem setRam_fileSystem (id : ℕ) (fs : RamFs) : (vfs.setRam id fs).fileSystem id = .ram fs :=
  Function.update_self _ _ _

theorem setRam_fileSystem_of_ne {id other : ℕ} (h : other ≠ id) (fs : RamFs) :
    (vfs.setRam id fs).fileSystem other = vfs.fileSystem other :=
  Function.update_of_ne h _ _

theorem setRam_self {fs : RamFs} {id : ℕ} (h : vfs.fileSystem id = .ram fs) :
    vfs.setRam id fs = vfs := by
  rw [setRam, ← h, Function.update_eq_self]

theorem onDirectory_error {α : Type} {method : RamFs → Except Errno (α × RamFs)}
    (h : vfs.onDirectory inode method = (.error e, vfs')) : vfs' = vfs := by
  unfold onDirectory at h
  split at h
  · split at h
    · split at h
      · exact absurd (Prod.mk.inj h).1 (by simp)
      · exact (Prod.mk.inj h).2.symm
    · exact (Prod.mk.inj h).2.symm
  · split at h <;> exact (Prod.mk.inj h).2.symm

theorem writeAt_error {offset : ℕ} {buf : List UInt8} {room : Bool}
    (h : vfs.writeAt inode offset buf room = (.error e, vfs')) : vfs' = vfs := by
  unfold writeAt at h
  split at h
  · rename_i fs hfs
    cases hmethod : fs.writeAt inode.ino offset buf room with
    | mk answer fs₁ =>
      rw [hmethod] at h
      obtain ⟨rfl, rfl⟩ := Prod.mk.inj h
      rw [RamFs.writeAt_error hmethod, setRam_self hfs]
  · split at h <;> exact (Prod.mk.inj h).2.symm

theorem truncate_error {size : ℕ} {room : Bool}
    (h : vfs.truncate inode size room = (.error e, vfs')) : vfs' = vfs := by
  unfold truncate at h
  split at h
  · rename_i fs hfs
    cases hmethod : fs.truncate inode.ino size room with
    | mk answer fs₁ =>
      rw [hmethod] at h
      obtain ⟨rfl, rfl⟩ := Prod.mk.inj h
      rw [RamFs.truncate_error hmethod, setRam_self hfs]
  · split at h <;> exact (Prod.mk.inj h).2.symm

theorem renameIn_error {old new : Name} {target : InodeRef}
    (h : vfs.renameIn inode old target new = some (.error e, vfs')) : vfs' = vfs := by
  unfold renameIn at h
  split at h
  · split at h
    · exact (Prod.mk.inj (Option.some.inj h)).2.symm
    · obtain ⟨answer, -, hanswer⟩ := Option.bind_eq_some_iff.mp h
      split at hanswer
      · exact absurd (Prod.mk.inj (Option.some.inj hanswer)).1 (by simp)
      · exact (Prod.mk.inj (Option.some.inj hanswer)).2.symm
  · split at h <;> exact (Prod.mk.inj (Option.some.inj h)).2.symm

/-! ## A path and its parent -/

theorem walkComponent_nil (stack : Stack) : vfs.walkComponent stack [] = .ok stack := by
  rw [walkComponent, if_pos (.inl rfl)]

/-- Slashes at the end do not change what a walk enters. -/
theorem foldlM_trim (path : Path) (stack : Stack) :
    (path.splitOn slash).foldlM vfs.walkComponent stack =
      ((path.rdropWhile (· == slash)).splitOn slash).foldlM vfs.walkComponent stack := by
  -- induction from the end of the path
  induction path using List.reverseRecOn with
  | nil => rfl
  | append_singleton path byte ih =>
    by_cases hbyte : byte = slash
    · subst hbyte
      rw [List.rdropWhile_concat_pos _ _ _ (by simp), ← ih, List.splitOn_append_cons_self,
        List.splitOn_nil, List.foldlM_append]
      cases (path.splitOn slash).foldlM vfs.walkComponent stack with
      | error e => rfl
      | ok stack => simp [bind, Except.bind, walkComponent_nil, pure, Except.pure]
    · rw [List.rdropWhile_concat_neg _ _ _ (by simpa using hbyte)]

/-- What stands before and behind the last slash. -/
theorem splitLast_eq {path directory : Path} {name : Name} (h : splitLast path = (directory, name)) :
    slash ∉ name ∧ (path = directory ++ slash :: name ∨ directory = [] ∧ path = name) := by
  unfold splitLast at h
  split at h
  · rename_i back hback
    obtain ⟨rfl, rfl⟩ := Prod.mk.inj h
    obtain ⟨-, hpath, hname⟩ := Text.eq_of_findIdx?_reverse hback
    exact ⟨hname, .inl hpath⟩
  · rename_i hnone
    obtain ⟨rfl, rfl⟩ := Prod.mk.inj h
    exact ⟨Text.notMem_of_findIdx?_reverse hnone, .inr ⟨rfl, rfl⟩⟩

/-- A walk enters the directory and then the last component. -/
theorem foldlM_splitLast {path directory : Path} {name : Name} (h : splitLast path = (directory, name))
    (stack : Stack) :
    (path.splitOn slash).foldlM vfs.walkComponent stack =
      (directory.splitOn slash).foldlM vfs.walkComponent stack >>= (vfs.walkComponent · name) := by
  obtain ⟨hname, rfl | ⟨rfl, rfl⟩⟩ := splitLast_eq h
  · rw [List.splitOn_append_cons_self, List.foldlM_append, List.splitOn_eq_singleton hname]
    congr 1
    funext stack
    simp
  · have hroot : [([] : Name)].foldlM vfs.walkComponent stack = .ok stack := by
      rw [List.foldlM_cons, walkComponent_nil]
      rfl
    rw [List.splitOn_eq_singleton hname, List.splitOn_nil, hroot, List.foldlM_cons]
    exact bind_pure (vfs.walkComponent stack path)

theorem parent_eq_ok {path : Path} {parent : Parent} (h : vfs.parent path = .ok parent) :
    ∃ directory, path ≠ [] ∧ splitLast (path.rdropWhile (· == slash)) = (directory, parent.name) ∧
      parent.name ≠ [] ∧ parent.name ≠ [dot] ∧ parent.name ≠ [dot, dot] ∧
      parent.name.length ≤ nameMax ∧ (∃ normalized, vfs.walkFromRoot directory =
        .ok (parent.directory, normalized) ∧ parent.path = join normalized parent.name) ∧
      vfs.kind parent.directory = .directory := by
  unfold Vfs.parent at h
  split at h
  · contradiction
  rename_i hpath
  cases hsplit : splitLast (path.rdropWhile (· == slash)) with
  | mk directory name =>
    rw [hsplit] at h
    dsimp only at h
    split at h
    · contradiction
    rename_i hname
    split at h
    · contradiction
    rename_i hdots
    split at h
    · contradiction
    rename_i hlength
    cases hwalk : vfs.walkFromRoot directory with
    | error e =>
      rw [hwalk] at h
      contradiction
    | ok found =>
      rw [hwalk] at h
      simp only [bind, Except.bind, pure, Except.pure] at h
      split at h
      · contradiction
      · rename_i hkind
        obtain rfl := Except.ok.inj h
        rw [not_or] at hdots
        exact ⟨directory, hpath, rfl, hname, hdots.1, hdots.2, Nat.le_of_not_gt hlength,
          ⟨found.2, hwalk, rfl⟩, by simpa using hkind⟩

theorem checkName_of_parent {path : Path} {parent : Parent} (h : vfs.parent path = .ok parent) :
    checkName parent.name = .ok () := by
  obtain ⟨directory, -, hsplit, hname, hdot, hdots, hlength, -, -⟩ := parent_eq_ok h
  obtain ⟨hslash, -⟩ := splitLast_eq hsplit
  rw [checkName, if_neg (by simp [hname, hslash]), if_neg (by omega), if_neg (by simp [hdot, hdots])]

/-- A path whose last name is in its directory exists. -/
theorem walk_ne_ENOENT {path : Path} {parent : Parent} {child : InodeRef}
    (h : vfs.parent path = .ok parent) (hlookup : vfs.lookup parent.directory parent.name = .ok child) :
    vfs.walk path ≠ .error .ENOENT := by
  obtain ⟨directory, hpath, hsplit, hname, hdot, hdots, hlength, ⟨normalized, hwalk, -⟩, hkind⟩ :=
    parent_eq_ok h
  intro hwalk'
  rw [walk, if_neg hpath] at hwalk'
  unfold walkFromRoot at hwalk hwalk'
  split at hwalk
  · contradiction
  · rename_i root hroot
    rw [hroot] at hwalk'
    dsimp only at hwalk'
    cases hstack : (directory.splitOn slash).foldlM vfs.walkComponent ⟨([slash], root), []⟩ with
    | error e =>
      rw [hstack] at hwalk
      contradiction
    | ok stack =>
      rw [hstack] at hwalk
      have htop : stack.top.2 = parent.directory := by
        simp only [bind, Except.bind, pure, Except.pure] at hwalk
        split at hwalk
        · contradiction
        · exact (Prod.mk.inj (Except.ok.inj hwalk)).1
      -- the last component is found, so only a trailing slash can fail
      have hstep : ∃ stack', vfs.walkComponent stack parent.name = .ok stack' := by
        rw [walkComponent, if_neg (by simp [hname, hdot]), if_neg hdots, if_neg (by omega), htop,
          if_neg (by simp [hkind]), hlookup]
        exact ⟨_, rfl⟩
      obtain ⟨stack', hstep⟩ := hstep
      rw [foldlM_trim, foldlM_splitLast hsplit, hstack] at hwalk'
      simp only [bind, Except.bind, hstep, pure, Except.pure] at hwalk'
      split at hwalk' <;> cases hwalk'

/-! ## The inode that `open` works on -/

/-- `open` makes a new file: the path is missing below a live directory of a ramfs. -/
def Creates (vfs : Vfs) (path : Path) (flags : OpenFlags) : Prop :=
  flags.contains .create ∧ vfs.walk path = .error .ENOENT ∧ ∃ parent fs, vfs.parent path = .ok parent ∧
    vfs.fileSystem parent.directory.fs = .ram fs ∧ fs.isDead parent.directory.ino = false

/-- The inode that is there already. -/
def Finds (vfs : Vfs) (path : Path) (flags : OpenFlags) (inode : InodeRef) : Prop :=
  ¬ flags.contains (OpenFlags.create.or .excl) ∧ ∃ normalized, vfs.walk path = .ok (inode, normalized)

theorem isDir_of_kind {fs : RamFs} (h : vfs.fileSystem inode.fs = .ram fs)
    (hkind : vfs.kind inode = .directory) : fs.isDir inode.ino = true := by
  simp only [kind, h] at hkind
  split at hkind
  · assumption
  · contradiction

/-- A new file in a ramfs. -/
def withFile (vfs : Vfs) (directory : InodeRef) (name : Name) (fs : RamFs) : Vfs :=
  vfs.setRam directory.fs
    (({ fs with nextIno := fs.nextIno + 1 }.setNode fs.nextIno (some (.file []))).mapEntries
      directory.ino (·.insert name fs.nextIno))

theorem createIn_ram {fs : RamFs} {name : Name} (h : vfs.fileSystem inode.fs = .ram fs)
    (hkind : vfs.kind inode = .directory) (hname : checkName name = .ok ()) :
    vfs.createIn inode name .file =
      if fs.isDead inode.ino then (.error .ENOENT, vfs)
      else if (fs.entries inode.ino)[name]?.isSome then (.error .EEXIST, vfs)
      else (.ok ⟨inode.fs, fs.nextIno⟩, vfs.withFile inode name fs) := by
  simp only [createIn, onDirectory, h, isDir_of_kind h hkind, if_true, hname, bind, Except.bind,
    RamFs.create, RamFs.newNode]
  by_cases hdead : fs.isDead inode.ino = true
  · simp only [hdead, if_true]
  · by_cases hexists : (fs.entries inode.ino)[name]?.isSome = true
    · simp only [hdead, hexists, if_true]
      rfl
    · simp only [hdead, hexists, withFile]
      rfl

theorem createIn_fixed {node : ℕ → FixedNode} {name : Name} {kind : InodeKind}
    (h : vfs.fileSystem inode.fs = .fixed node) :
    ∃ e, e ≠ .EEXIST ∧ vfs.createIn inode name kind = (.error e, vfs) := by
  simp only [createIn, onDirectory, h]
  split
  · exact ⟨.EROFS, (by simp), rfl⟩
  · exact ⟨.ENOTDIR, (by simp), rfl⟩

/-- The new file of a path. -/
def Created (vfs vfs' : Vfs) (path : Path) (inode : InodeRef) : Prop :=
  ∃ parent fs, vfs.parent path = .ok parent ∧ vfs.fileSystem parent.directory.fs = .ram fs ∧
    fs.isDir parent.directory.ino ∧ (fs.entries parent.directory.ino)[parent.name]? = none ∧
    inode = ⟨parent.directory.fs, fs.nextIno⟩ ∧
    vfs' = vfs.withFile parent.directory parent.name fs

/-- Nothing happens, or the inode is found, or it is created. -/
theorem openInode_cases {path : Path} {flags : OpenFlags} {answer : Except Errno InodeRef}
    (h : vfs.openInode path flags = (answer, vfs')) :
    (∃ e, answer = .error e ∧ vfs' = vfs ∧ ¬ Creates vfs path flags ∧
      ∀ inode, ¬ Finds vfs path flags inode) ∨
    (∃ inode, answer = .ok inode ∧ vfs' = vfs ∧ Finds vfs path flags inode ∧
      ¬ Creates vfs path flags) ∨
    ∃ inode, answer = .ok inode ∧ Created vfs vfs' path inode ∧ Creates vfs path flags ∧
      ∀ inode, ¬ Finds vfs path flags inode := by
  unfold openInode at h
  cases hwalk : vfs.walk path with
  | ok found =>
    have hnot : ¬ Creates vfs path flags := fun hc => absurd (hwalk.symm.trans hc.2.1) (by simp)
    simp only [hwalk] at h
    split at h
    · rename_i hexcl
      obtain ⟨rfl, rfl⟩ := Prod.mk.inj h
      exact .inl ⟨_, rfl, rfl, hnot, fun inode hfinds => hfinds.1 hexcl⟩
    · rename_i hexcl
      obtain ⟨rfl, rfl⟩ := Prod.mk.inj h
      exact .inr (.inl ⟨found.1, rfl, rfl, ⟨hexcl, found.2, hwalk⟩, hnot⟩)
  | error e =>
    have hnone : ∀ inode, ¬ Finds vfs path flags inode :=
      fun inode ⟨_, _, hfound⟩ => absurd (hwalk.symm.trans hfound) (by simp)
    simp only [hwalk] at h
    split at h
    · rename_i hcreate
      obtain ⟨rfl, hcreate⟩ := hcreate
      cases hparent : vfs.parent path with
      | error e =>
        simp only [hparent] at h
        obtain ⟨rfl, rfl⟩ := Prod.mk.inj h
        refine .inl ⟨_, rfl, rfl, ?_, hnone⟩
        rintro ⟨-, -, parent, -, hok, -⟩
        exact absurd (hparent.symm.trans hok) (by simp)
      | ok parent =>
        obtain ⟨directory, -, -, -, -, -, -, -, hkind⟩ := parent_eq_ok hparent
        simp only [hparent] at h
        cases hfs : vfs.fileSystem parent.directory.fs with
        | fixed node =>
          obtain ⟨e, hne, hanswer⟩ : ∃ e, e ≠ .EEXIST ∧
              vfs.createIn parent.directory parent.name .file = (.error e, vfs) := createIn_fixed hfs
          simp only [hanswer, hne, false_and, if_false] at h
          obtain ⟨rfl, rfl⟩ := Prod.mk.inj h
          refine .inl ⟨_, rfl, rfl, ?_, hnone⟩
          rintro ⟨-, -, parent', fs, hok, hram, -⟩
          obtain rfl := Except.ok.inj (hparent.symm.trans hok)
          exact absurd (hfs.symm.trans hram) (by simp)
        | ram fs =>
          have hdir := isDir_of_kind hfs hkind
          rw [createIn_ram hfs hkind (checkName_of_parent hparent)] at h
          -- the walk would have found an entry of that name
          have habsent : (fs.entries parent.directory.ino)[parent.name]? = none := by
            by_contra hsome
            obtain ⟨ino, hino⟩ := Option.ne_none_iff_exists'.mp hsome
            have hlookup : vfs.lookup parent.directory parent.name = .ok ⟨parent.directory.fs, ino⟩ := by
              simp only [lookup, hfs, hdir, if_true, RamFs.lookup, hino]
              rfl
            exact walk_ne_ENOENT hparent hlookup hwalk
          simp only [habsent, Option.isSome_none, Bool.false_eq_true, if_false] at h
          by_cases hdead : fs.isDead parent.directory.ino = true
          · simp only [hdead, if_true, reduceCtorEq, false_and, if_false] at h
            obtain ⟨rfl, rfl⟩ := Prod.mk.inj h
            refine .inl ⟨_, rfl, rfl, ?_, hnone⟩
            rintro ⟨-, -, parent', fs', hok, hram, hlive⟩
            obtain rfl := Except.ok.inj (hparent.symm.trans hok)
            obtain rfl := FileSystem.ram.inj (hfs.symm.trans hram)
            exact Bool.false_ne_true (hlive.symm.trans hdead)
          · simp only [hdead] at h
            obtain ⟨rfl, rfl⟩ := Prod.mk.inj h
            exact .inr (.inr ⟨_, rfl, ⟨parent, fs, hparent, hfs, hdir, habsent, rfl, rfl⟩,
              ⟨hcreate, hwalk, parent, fs, hparent, hfs, eq_false_of_ne_true hdead⟩, hnone⟩)
    · rename_i hcreate
      obtain ⟨rfl, rfl⟩ := Prod.mk.inj h
      refine .inl ⟨_, rfl, rfl, ?_, hnone⟩
      rintro ⟨hflag, henoent, -⟩
      exact hcreate ⟨Except.error.inj (hwalk.symm.trans henoent), hflag⟩

/-! ## What a caller can see -/

/-- The same inodes with the same entries and the same data. -/
def SameTree : FileSystem → FileSystem → Prop
  | .ram fs, .ram fs' => fs'.node = fs.node
  | .fixed node, .fixed node' => node' = node
  | _, _ => False

/-- The tree, the files' contents, the descriptors and the offsets are the same. The numbers that the
next inode and the next open file get, and the byte count of a ramfs, are left out. -/
structure Unchanged (vfs vfs' : Vfs) : Prop where
  mounts : vfs'.mounts = vfs.mounts
  tree : ∀ id, SameTree (vfs.fileSystem id) (vfs'.fileSystem id)
  table : vfs'.files.table = vfs.files.table
  file : vfs'.files.file = vfs.files.file

theorem SameTree.refl : ∀ fs : FileSystem, SameTree fs fs
  | .ram _ => rfl
  | .fixed _ => rfl

theorem SameTree.symm : ∀ {fs₁ fs₂ : FileSystem}, SameTree fs₁ fs₂ → SameTree fs₂ fs₁
  | .ram _, .ram _, h => Eq.symm h
  | .fixed _, .fixed _, h => Eq.symm h

theorem SameTree.trans : ∀ {fs₁ fs₂ fs₃ : FileSystem}, SameTree fs₁ fs₂ → SameTree fs₂ fs₃ →
    SameTree fs₁ fs₃
  | .ram _, .ram _, .ram _, h₁, h₂ => Eq.trans h₂ h₁
  | .fixed _, .fixed _, .fixed _, h₁, h₂ => Eq.trans h₂ h₁

namespace Unchanged

theorem refl (vfs : Vfs) : Unchanged vfs vfs :=
  ⟨rfl, fun _ => .refl _, rfl, rfl⟩

theorem of_eq (h : vfs' = vfs) : Unchanged vfs vfs' :=
  h ▸ refl vfs'

theorem trans {vfs₁ vfs₂ vfs₃ : Vfs} (h₁ : Unchanged vfs₁ vfs₂) (h₂ : Unchanged vfs₂ vfs₃) :
    Unchanged vfs₁ vfs₃ :=
  ⟨h₂.mounts.trans h₁.mounts, fun id => (h₁.tree id).trans (h₂.tree id), h₂.table.trans h₁.table,
    h₂.file.trans h₁.file⟩

theorem symm {vfs₁ vfs₂ : Vfs} (h : Unchanged vfs₁ vfs₂) : Unchanged vfs₂ vfs₁ :=
  ⟨h.mounts.symm, fun id => (h.tree id).symm, h.table.symm, h.file.symm⟩

/-- A ramfs in the place of one is seen by its inodes only. -/
theorem setRam_iff {fs fs' : RamFs} {id : ℕ} (h : vfs.fileSystem id = .ram fs) :
    Unchanged vfs (vfs.setRam id fs') ↔ fs'.node = fs.node := by
  constructor
  · intro hsame
    have htree := hsame.tree id
    rw [h, setRam_fileSystem] at htree
    exact htree
  · intro hnode
    refine ⟨rfl, fun other => ?_, rfl, rfl⟩
    by_cases hother : other = id
    · subst hother
      rw [h, setRam_fileSystem]
      exact hnode
    · rw [setRam_fileSystem_of_ne hother]
      exact .refl _

end Unchanged

/-- A new file is seen: an entry of its directory is new, or the directory is one no more. -/
theorem Created.not_unchanged {path : Path} (h : Created vfs vfs' path inode) :
    ¬ Unchanged vfs vfs' := by
  obtain ⟨parent, fs, -, hfs, hdir, habsent, -, rfl⟩ := h
  rw [withFile, Unchanged.setRam_iff hfs]
  intro hnode
  obtain ⟨d, hd⟩ := Option.isSome_iff_exists.mp hdir
  by_cases hino : parent.directory.ino = fs.nextIno
  · -- only in a state where the next number is taken
    have hfile : fs.node fs.nextIno = some (.file []) := by
      rw [← hnode, RamFs.mapEntries, RamFs.setDir, RamFs.dir, RamFs.setNode, hino]
      simp [Node.asDir]
    rw [RamFs.dir, hino, hfile] at hd
    contradiction
  · have hafter : (fs.entries parent.directory.ino)[parent.name]? = some fs.nextIno := by
      have hsame := congrFun hnode parent.directory.ino
      simp only [RamFs.mapEntries, RamFs.setDir, RamFs.dir, RamFs.setNode,
        Function.update_of_ne hino] at hsame hd
      simp only [hd, Function.update_self] at hsame
      rw [RamFs.entries, RamFs.dir, ← hsame]
      simp [Node.asDir]
    exact absurd (habsent.symm.trans hafter) (by simp)

theorem Created.ramFile {path : Path} (h : Created vfs vfs' path inode) :
    vfs'.files = vfs.files ∧
      ∃ fs, vfs'.fileSystem inode.fs = .ram fs ∧ fs.node inode.ino = some (.file []) := by
  obtain ⟨parent, fs, -, -, -, -, rfl, rfl⟩ := h
  refine ⟨rfl, _, setRam_fileSystem _ _, ?_⟩
  have hnew : (({ fs with nextIno := fs.nextIno + 1 }.setNode fs.nextIno (some (.file []))).node
      fs.nextIno) = some (.file []) := Function.update_self _ _ _
  unfold RamFs.mapEntries RamFs.setDir
  split
  · rename_i d hd
    -- the directory is another inode, for the new one is a file
    have hne : fs.nextIno ≠ parent.directory.ino := by
      intro heq
      rw [RamFs.dir, ← heq, hnew] at hd
      contradiction
    exact (Function.update_of_ne hne _ _).trans hnew
  · exact hnew

/-! ## Opening -/

/-- No descriptor is free. -/
def Full (table : FileTable) : Prop :=
  (∀ slot ∈ table.slots, slot.isSome) ∧ maxFds ≤ table.slots.length

/-- `open` cuts off the data of this inode. -/
def Empties (vfs : Vfs) (flags : OpenFlags) (inode : InodeRef) : Prop :=
  flags.contains .trunc ∧ flags.contains .write ∧ ¬ flags.contains .directory ∧
    ∃ fs data, vfs.fileSystem inode.fs = .ram fs ∧ fs.node inode.ino = some (.file data) ∧ data ≠ []

theorem install_of_full {flags : OpenFlags} (h : Full vfs.files.table) :
    vfs.install inode flags = (.error .EMFILE, vfs) := by
  have hfind : vfs.files.table.slots.findIdx? (·.isNone) = none := by
    rw [List.findIdx?_eq_none_iff]
    intro slot hslot
    rw [Option.isNone_eq_false_iff]
    exact h.1 slot hslot
  simp only [install, FileTable.insert, hfind, if_pos h.2]

theorem install_error {flags : OpenFlags} (h : vfs.install inode flags = (.error e, vfs')) :
    Full vfs.files.table ∧ vfs' = vfs := by
  unfold install at h
  split at h
  · rename_i hinsert
    refine ⟨?_, (Prod.mk.inj h).2.symm⟩
    unfold FileTable.insert at hinsert
    split at hinsert
    · contradiction
    · rename_i hfind
      split at hinsert
      · rename_i hlength
        rw [List.findIdx?_eq_none_iff] at hfind
        exact ⟨fun slot hslot => Option.isNone_eq_false_iff.mp (hfind slot hslot), hlength⟩
      · contradiction
  · exact absurd (Prod.mk.inj h).1 (by simp)

theorem openHook_ram {fs : RamFs} {flags : OpenFlags} (h : vfs.fileSystem inode.fs = .ram fs) :
    vfs.openHook inode flags = .ok inode := by
  simp only [openHook, h]

/-- A file of a ramfs passes unless a directory is asked for, and then has no data if it is to be
truncated. -/
theorem prepare_ramFile {fs : RamFs} {data : List UInt8} (flags : OpenFlags)
    (h : vfs.fileSystem inode.fs = .ram fs) (hnode : fs.node inode.ino = some (.file data)) :
    (flags.contains .directory → vfs.prepare inode flags = (.error .ENOTDIR, vfs)) ∧
    (¬ flags.contains .directory → ∃ vfs', vfs.prepare inode flags = (.ok (), vfs') ∧
      vfs'.files = vfs.files ∧ (∃ fs', vfs'.fileSystem inode.fs = .ram fs') ∧
      (Unchanged vfs vfs' ↔ ¬ Empties vfs flags inode)) := by
  have hkind : vfs.kind inode = .file := by
    simp [kind, h, RamFs.isDir, RamFs.dir, hnode, Node.asDir]
  refine ⟨fun hdirectory => by simp only [prepare, hkind, if_pos hdirectory], fun hdirectory => ?_⟩
  simp only [prepare, hkind, if_neg hdirectory]
  by_cases htrunc : flags.contains .trunc = true ∧ flags.contains .write = true
  · -- cutting a file off does not fail
    have hresize : fs.resize data 0 true = (.ok [], fs.release data.length) := by
      simp [RamFs.resize]
    refine ⟨vfs.setRam inode.fs ((fs.release data.length).setData inode.ino []), ?_, rfl,
      ⟨_, setRam_fileSystem _ _⟩, ?_⟩
    · simp [htrunc, truncate, h, RamFs.truncate, hnode, hresize]
    · rw [Unchanged.setRam_iff h]
      constructor
      · rintro hsame ⟨-, -, -, fs', data', hfs', hdata', hne⟩
        obtain rfl := FileSystem.ram.inj (h.symm.trans hfs')
        rw [← hsame] at hdata'
        have hempty : ((fs.release data.length).setData inode.ino []).node inode.ino =
          some (.file []) := Function.update_self _ _ _
        obtain rfl := Node.file.inj (Option.some.inj (hempty.symm.trans hdata'))
        exact hne rfl
      · intro hnot
        have hdata : data = [] := by
          by_contra hne
          exact hnot ⟨htrunc.1, htrunc.2, hdirectory, fs, data, h, hnode, hne⟩
        rw [hdata] at hnode
        exact (congrArg (Function.update fs.node inode.ino) hnode.symm).trans
          (Function.update_eq_self _ _)
  · simp only [if_neg htrunc]
    exact ⟨vfs, rfl, rfl, ⟨fs, h⟩, fun _ hempties => htrunc ⟨hempties.1, hempties.2.1⟩,
      fun _ => .refl vfs⟩

/-- Nothing is done with any other inode. -/
theorem prepare_other {flags : OpenFlags} {answer : Except Errno Unit}
    (h : vfs.prepare inode flags = (answer, vfs'))
    (hother : ∀ fs data, vfs.fileSystem inode.fs = .ram fs → fs.node inode.ino ≠ some (.file data)) :
    vfs' = vfs := by
  unfold prepare at h
  split at h
  · split at h <;> exact (Prod.mk.inj h).2.symm
  · split at h
    · exact (Prod.mk.inj h).2.symm
    split at h
    · cases answer with
      | error e => exact truncate_error h
      | ok answer =>
        -- only a file of a ramfs can be truncated
        unfold truncate at h
        split at h
        · rename_i fs hfs
          unfold RamFs.truncate at h
          cases hnode : fs.node inode.ino with
          | none =>
            rw [hnode] at h
            exact absurd (Prod.mk.inj h).1 (by simp)
          | some node =>
            rw [hnode] at h
            cases node with
            | file data => exact absurd hnode (hother fs data hfs)
            | dir d => exact absurd (Prod.mk.inj h).1 (by simp)
        · split at h <;> exact absurd (Prod.mk.inj h).1 (by simp)
    · exact (Prod.mk.inj h).2.symm
  · split at h <;> exact (Prod.mk.inj h).2.symm

/-- `open` changes something and then fails: it asks for a directory where it makes a file, or finds no
free descriptor once it has made a file or emptied one. -/
def OpenSpoils (vfs : Vfs) (path : Path) (flags : OpenFlags) : Prop :=
  (flags.contains .read ∨ flags.contains .write) ∧
    (Creates vfs path flags ∧ (flags.contains .directory ∨ Full vfs.files.table) ∨
      Full vfs.files.table ∧ ∃ inode, Finds vfs path flags inode ∧ Empties vfs flags inode)

/-- What `open` does once it has its inode. -/
def finishOpen (vfs : Vfs) (inode : InodeRef) (flags : OpenFlags) : Outcome ℕ :=
  match vfs.prepare inode flags with
  | (.error e, vfs) => (.error e, vfs)
  | (.ok (), vfs) =>
    match vfs.openHook inode flags with
    | .error e => (.error e, vfs)
    | .ok inode => vfs.install inode flags

theorem open_eq {path : Path} {flags : OpenFlags}
    (h : flags.contains .read = true ∨ flags.contains .write = true) :
    vfs.open path flags = match vfs.openInode path flags with
      | (.error e, vfs) => (.error e, vfs)
      | (.ok inode, vfs) => vfs.finishOpen inode flags := by
  rw [«open», if_neg (by tauto)]
  rfl

/-- With a file of a ramfs, only a missing descriptor and the wish for a directory are errors; the file
is emptied before the first and not before the second. -/
theorem finishOpen_ramFile {fs : RamFs} {data : List UInt8} (flags : OpenFlags)
    (h : vfs.fileSystem inode.fs = .ram fs) (hnode : fs.node inode.ino = some (.file data)) :
    (flags.contains .directory → vfs.finishOpen inode flags = (.error .ENOTDIR, vfs)) ∧
    (¬ flags.contains .directory → Full vfs.files.table → ∃ vfs',
      vfs.finishOpen inode flags = (.error .EMFILE, vfs') ∧
      (Unchanged vfs vfs' ↔ ¬ Empties vfs flags inode)) ∧
    (¬ flags.contains .directory → ¬ Full vfs.files.table → ∀ e vfs',
      vfs.finishOpen inode flags ≠ (.error e, vfs')) := by
  obtain ⟨hrefused, hpassed⟩ := prepare_ramFile flags h hnode
  refine ⟨fun hdirectory => ?_, fun hdirectory hfull => ?_, fun hdirectory hfull e vfs' hopen => ?_⟩
  · simp only [finishOpen, hrefused hdirectory]
  · obtain ⟨vfs₁, hprepare, hfiles, ⟨fs₁, hfs₁⟩, hsame⟩ := hpassed hdirectory
    refine ⟨vfs₁, ?_, hsame⟩
    simp only [finishOpen, hprepare, openHook_ram hfs₁]
    exact install_of_full (hfiles ▸ hfull)
  · obtain ⟨vfs₁, hprepare, hfiles, ⟨fs₁, hfs₁⟩, -⟩ := hpassed hdirectory
    simp only [finishOpen, hprepare, openHook_ram hfs₁] at hopen
    exact hfull (hfiles ▸ (install_error hopen).1)

/-- Any other inode is left alone. -/
theorem finishOpen_other {flags : OpenFlags} (h : vfs.finishOpen inode flags = (.error e, vfs'))
    (hother : ∀ fs data, vfs.fileSystem inode.fs = .ram fs → fs.node inode.ino ≠ some (.file data)) :
    vfs' = vfs := by
  unfold finishOpen at h
  split at h
  · rename_i hprepare
    obtain rfl := (Prod.mk.inj h).2
    exact prepare_other hprepare hother
  · rename_i hprepare
    have hsame := prepare_other hprepare hother
    split at h
    · exact (Prod.mk.inj h).2.symm.trans hsame
    · exact (install_error h).2.trans hsame

/-- An inode that is there already is spoilt exactly if it is emptied with no descriptor left. -/
theorem finishOpen_unchanged_iff {flags : OpenFlags} :
    (∀ e vfs', vfs.finishOpen inode flags = (.error e, vfs') → Unchanged vfs vfs') ↔
      ¬ (Full vfs.files.table ∧ Empties vfs flags inode) := by
  by_cases hother : ∀ fs data, vfs.fileSystem inode.fs = .ram fs →
      fs.node inode.ino ≠ some (.file data)
  · refine ⟨?_, fun _ e vfs' hopen => .of_eq (finishOpen_other hopen hother)⟩
    rintro - ⟨-, -, -, -, fs, data, hfs, hdata, -⟩
    exact hother fs data hfs hdata
  · push Not at hother
    obtain ⟨fs, data, hfs, hdata⟩ := hother
    obtain ⟨hrefused, hfilled, hinstalled⟩ := finishOpen_ramFile flags hfs hdata
    constructor
    · rintro hsame ⟨hfull, hempties⟩
      obtain ⟨vfs', hopen, hiff⟩ := hfilled hempties.2.2.1 hfull
      exact hiff.mp (hsame _ vfs' hopen) hempties
    · intro hnot e vfs' hopen
      by_cases hdirectory : flags.contains .directory = true
      · rw [hrefused hdirectory] at hopen
        exact .of_eq (Prod.mk.inj hopen).2.symm
      · by_cases hfull : Full vfs.files.table
        · obtain ⟨vfs₁, hopen₁, hiff⟩ := hfilled hdirectory hfull
          obtain rfl := (Prod.mk.inj (hopen₁.symm.trans hopen)).2
          exact hiff.mpr fun hempties => hnot ⟨hfull, hempties⟩
        · exact absurd hopen (hinstalled hdirectory hfull e vfs')

/-- A new file stays behind exactly if a directory was asked for or no descriptor is left. -/
theorem finishOpen_created_iff {path : Path} {flags : OpenFlags} (h : Created vfs vfs' path inode) :
    (∀ e vfs'', vfs'.finishOpen inode flags = (.error e, vfs'') → Unchanged vfs vfs'') ↔
      ¬ (flags.contains .directory ∨ Full vfs.files.table) := by
  obtain ⟨hfiles, fs, hfs, hdata⟩ := h.ramFile
  obtain ⟨hrefused, hfilled, hinstalled⟩ := finishOpen_ramFile flags hfs hdata
  constructor
  · intro hsame hor
    by_cases hdirectory : flags.contains .directory = true
    · exact h.not_unchanged (hsame _ vfs' (hrefused hdirectory))
    · obtain ⟨vfs₂, hopen, hiff⟩ := hfilled hdirectory (hfiles ▸ hor.resolve_left hdirectory)
      -- the new file has no data to lose
      have hkept : Unchanged vfs' vfs₂ := by
        refine hiff.mpr ?_
        rintro ⟨-, -, -, fs', data, hfs', hdata', hne⟩
        obtain rfl := FileSystem.ram.inj (hfs.symm.trans hfs')
        exact hne (Node.file.inj (Option.some.inj (hdata'.symm.trans hdata)))
      have hboth := hsame _ vfs₂ hopen
      exact h.not_unchanged (hboth.trans hkept.symm)
  · intro hnot e vfs₂ hopen
    rw [not_or] at hnot
    exact absurd hopen (hinstalled hnot.1 (hfiles ▸ hnot.2) e vfs₂)

theorem open_unchanged_iff {path : Path} {flags : OpenFlags} :
    (∀ e vfs', vfs.open path flags = (.error e, vfs') → Unchanged vfs vfs') ↔
      ¬ OpenSpoils vfs path flags := by
  by_cases hmode : flags.contains .read = true ∨ flags.contains .write = true
  · rw [open_eq hmode]
    cases hinode : vfs.openInode path flags with
    | mk answer vfs₁ =>
      obtain ⟨e, rfl, rfl, hcreates, hfinds⟩ | ⟨inode, rfl, rfl, hfinds, hcreates⟩ |
        ⟨inode, rfl, hcreated, hcreates, hfinds⟩ := openInode_cases hinode
      · refine ⟨?_, fun _ e' vfs' hopen => .of_eq (Prod.mk.inj hopen).2.symm⟩
        rintro - ⟨-, ⟨hc, -⟩ | ⟨-, inode, hf, -⟩⟩
        · exact hcreates hc
        · exact hfinds inode hf
      · refine finishOpen_unchanged_iff.trans (not_congr ?_)
        constructor
        · rintro ⟨hfull, hempties⟩
          exact ⟨hmode, .inr ⟨hfull, inode, hfinds, hempties⟩⟩
        · rintro ⟨-, ⟨hc, -⟩ | ⟨hfull, inode', hf, hempties⟩⟩
          · exact absurd hc hcreates
          · obtain ⟨-, normalized, hwalk⟩ := hfinds
            obtain ⟨-, normalized', hwalk'⟩ := hf
            obtain ⟨rfl, -⟩ := Prod.mk.inj (Except.ok.inj (hwalk.symm.trans hwalk'))
            exact ⟨hfull, hempties⟩
      · refine (finishOpen_created_iff hcreated).trans (not_congr ?_)
        constructor
        · exact fun hor => ⟨hmode, .inl ⟨hcreates, hor⟩⟩
        · rintro ⟨-, ⟨-, hor⟩ | ⟨-, inode', hf, -⟩⟩
          · exact hor
          · exact absurd hf (hfinds inode')
  · refine ⟨fun _ hspoils => hmode hspoils.1, fun _ e vfs' hopen => ?_⟩
    rw [«open», if_pos (by tauto)] at hopen
    exact .of_eq (Prod.mk.inj hopen).2.symm

/-! ## Writing -/

/-- The inode does not take `buf` at its end. -/
def Refuses (vfs : Vfs) (inode : InodeRef) (buf : List UInt8) (room : Bool) : Prop :=
  match vfs.fileSystem inode.fs with
  | .ram fs =>
    match fs.node inode.ino with
    | some (.file data) =>
      2 ^ 64 ≤ data.length + buf.length ∨
        buf ≠ [] ∧ (room = false ∨ 2 ^ 64 ≤ fs.used + buf.length ∨ fs.limit < fs.used + buf.length)
    | _ => True
  | .fixed node =>
    match node inode.ino with
    | .device size write _ => ∃ e, write size buf = .error e
    | _ => True

theorem writeAt_size_error_iff {buf : List UInt8} {room : Bool} :
    (∃ e vfs', vfs.writeAt inode (vfs.size inode) buf room = (.error e, vfs')) ↔
      Refuses vfs inode buf room := by
  unfold Refuses
  cases hfs : vfs.fileSystem inode.fs with
  | fixed node =>
    cases hnode : node inode.ino with
    | directory entries => simp [writeAt, hfs, hnode]
    | file => simp [writeAt, hfs, hnode]
    | device size write opened => simp [writeAt, Vfs.size, hfs, hnode]
  | ram fs =>
    cases hnode : fs.node inode.ino with
    | none => simp [writeAt, hfs, RamFs.writeAt, hnode]
    | some node =>
      cases node with
      | dir d => simp [writeAt, hfs, RamFs.writeAt, hnode]
      | file data =>
        simp only [writeAt, Vfs.size, hfs, RamFs.writeAt, hnode]
        by_cases hstop : data.length + buf.length < 2 ^ 64
        · rw [if_neg (not_not.mpr hstop)]
          by_cases hbuf : buf = []
          · subst hbuf
            simp
            omega
          · have hlength := List.length_pos_iff.mpr hbuf
            rw [if_pos (show data.length + buf.length > data.length by omega),
              ← RamFs.resize_grow_error_iff data hbuf]
            cases hresize : fs.resize data (data.length + buf.length) room with
            | mk answer fs' =>
              cases answer with
              | error e => simp [hbuf]
              | ok data' =>
                simp [hbuf]
                omega
        · rw [if_pos hstop]
          exact ⟨fun _ => .inl (not_lt.mp hstop), fun _ => ⟨_, _, rfl⟩⟩

/-- An appending `write` moves the offset and then fails. -/
def WriteSpoils (vfs : Vfs) (fd : ℕ) (buf : List UInt8) (room : Bool) : Prop :=
  ∃ id file, vfs.files.get fd = .ok (id, file) ∧ file.flags.contains .write ∧
    file.flags.contains .append ∧ file.offset ≠ vfs.size file.inode ∧
    Refuses vfs file.inode buf room

theorem unchanged_setOffset_iff {id : ℕ} (offset : ℕ) {file : OpenFile InodeRef}
    (h : vfs.files.file id = some file) :
    Unchanged vfs (vfs.setOffset id offset) ↔ offset = file.offset := by
  constructor
  · intro hsame
    have hmoved := congrFun hsame.file id
    simp only [setOffset, Files.setOffset, Function.update_self, h, Option.map_some,
      Option.some.injEq] at hmoved
    exact (OpenFile.mk.inj hmoved).2.2
  · rintro rfl
    refine ⟨rfl, fun _ => .refl _, rfl, ?_⟩
    simp only [setOffset, Files.setOffset, h, Option.map_some]
    rw [← h, Function.update_eq_self]

/-- Moving an offset says nothing to an inode. -/
theorem writeAt_setOffset {id offset position : ℕ} {buf : List UInt8} {room : Bool} :
    (vfs.setOffset id offset).writeAt inode position buf room =
      ((vfs.writeAt inode position buf room).1,
        (vfs.writeAt inode position buf room).2.setOffset id offset) := by
  simp only [writeAt, setOffset]
  split
  · rfl
  · split <;> rfl

theorem write_unchanged_iff {fd : ℕ} {buf : List UInt8} {room : Bool} :
    (∀ e vfs', vfs.write fd buf room = (.error e, vfs') → Unchanged vfs vfs') ↔
      ¬ WriteSpoils vfs fd buf room := by
  cases hget : vfs.files.get fd with
  | error e =>
    simp only [write, hget]
    refine ⟨?_, fun _ e' vfs' h => .of_eq (Prod.mk.inj h).2.symm⟩
    rintro - ⟨id, file, hok, -⟩
    exact absurd (hget.symm.trans hok) (by simp)
  | ok found =>
    obtain ⟨id, file⟩ := found
    simp only [write, hget]
    by_cases hwrite : file.flags.contains .write = true
    swap
    · simp only [if_pos hwrite]
      refine ⟨?_, fun _ e' vfs' h => .of_eq (Prod.mk.inj h).2.symm⟩
      rintro - ⟨id', file', hok, hwrite', -⟩
      obtain ⟨rfl, rfl⟩ := Prod.mk.inj (Except.ok.inj (hget.symm.trans hok))
      exact hwrite hwrite'
    simp only [if_neg (not_not.mpr hwrite)]
    by_cases happend : file.flags.contains .append = true
    · -- the offset is at the end when the inode refuses
      simp only [if_pos happend, writeAt_setOffset]
      have hspoils : WriteSpoils vfs fd buf room ↔
          file.offset ≠ vfs.size file.inode ∧ Refuses vfs file.inode buf room := by
        constructor
        · rintro ⟨id', file', hok, -, -, hoffset, hrefuses⟩
          obtain ⟨rfl, rfl⟩ := Prod.mk.inj (Except.ok.inj (hget.symm.trans hok))
          exact ⟨hoffset, hrefuses⟩
        · exact fun h => ⟨id, file, hget, hwrite, happend, h⟩
      rw [hspoils, ← writeAt_size_error_iff]
      cases hmethod : vfs.writeAt file.inode (vfs.size file.inode) buf room with
      | mk answer vfs₁ =>
        cases answer with
        | ok count => simp
        | error e =>
          obtain rfl := writeAt_error hmethod
          have hoffset := unchanged_setOffset_iff (vfs₁.size file.inode) (Files.get_eq_ok hget).2
          constructor
          · rintro hsame ⟨hne, -⟩
            exact hne (hoffset.mp (hsame e _ rfl)).symm
          · intro hnot e' vfs' h
            obtain rfl := (Prod.mk.inj h).2
            refine hoffset.mpr ?_
            by_contra hne
            exact hnot ⟨Ne.symm hne, e, _, rfl⟩
    · simp only [if_neg happend]
      refine ⟨?_, fun _ e' vfs' h => ?_⟩
      · rintro - ⟨id', file', hok, -, happend', -⟩
        obtain ⟨rfl, rfl⟩ := Prod.mk.inj (Except.ok.inj (hget.symm.trans hok))
        exact happend happend'
      · split at h
        · rename_i hmethod
          obtain rfl := (Prod.mk.inj h).2
          exact .of_eq (writeAt_error hmethod)
        · exact absurd (Prod.mk.inj h).1 (by simp)

/-! ## All calls -/

/-- A call that changes something. `room` is whether the allocator has room for a file to grow. -/
inductive Call
  | «open» (path : Path) (flags : OpenFlags)
  | mkdir (path : Path)
  | unlink (path : Path)
  | rmdir (path : Path)
  | rename (old new : Path)
  | write (fd : ℕ) (buf : List UInt8) (room : Bool)
  | truncate (inode : InodeRef) (size : ℕ) (room : Bool)
  | ftruncate (fd size : ℕ) (room : Bool)

/-- Whether the call failed, and the state after it. -/
def perform (vfs : Vfs) : Call → Option (Outcome Unit)
  | .open path flags =>
    let (answer, vfs) := vfs.open path flags
    some (answer.map fun _ => (), vfs)
  | .mkdir path => some (vfs.mkdir path)
  | .unlink path => some (vfs.unlink path)
  | .rmdir path => some (vfs.rmdir path)
  | .rename old new => vfs.rename old new
  | .write fd buf room =>
    let (answer, vfs) := vfs.write fd buf room
    some (answer.map fun _ => (), vfs)
  | .truncate inode size room => some (vfs.truncate inode size room)
  | .ftruncate fd size room => some (vfs.ftruncate fd size room)

/-- A call that answers with an error changes nothing. -/
def FailsCleanly (vfs : Vfs) (call : Call) : Prop :=
  ∀ e vfs', vfs.perform call = some (.error e, vfs') → Unchanged vfs vfs'

/-- The call changes something and then fails. -/
def Spoils (vfs : Vfs) : Call → Prop
  | .open path flags => OpenSpoils vfs path flags
  | .write fd buf room => WriteSpoils vfs fd buf room
  | _ => False

/-- An answer that is dropped fails with the same error. -/
theorem failsCleanly_of_map {α : Type} {call : Call} {outcome : Outcome α}
    (h : vfs.perform call = some (outcome.1.map fun _ => (), outcome.2)) :
    FailsCleanly vfs call ↔ ∀ e vfs', outcome = (.error e, vfs') → Unchanged vfs vfs' := by
  obtain ⟨answer, vfs₁⟩ := outcome
  unfold FailsCleanly
  rw [h]
  cases answer with
  | ok a => simp [Except.map]
  | error e => simp [Except.map]

theorem failsCleanly_open {path : Path} {flags : OpenFlags} :
    FailsCleanly vfs (.open path flags) ↔ ¬ OpenSpoils vfs path flags :=
  (failsCleanly_of_map rfl).trans open_unchanged_iff

theorem mkdir_error {path : Path} (h : vfs.mkdir path = (.error e, vfs')) : vfs' = vfs := by
  unfold mkdir at h
  split at h
  · exact (Prod.mk.inj h).2.symm
  · rename_i parent hparent
    cases hcreate : vfs.createIn parent.directory parent.name .directory with
    | mk answer vfs₁ =>
      rw [hcreate] at h
      cases answer with
      | ok inode => cases (Prod.mk.inj h).1
      | error e' =>
        obtain rfl := (Prod.mk.inj h).2
        exact onDirectory_error hcreate

theorem unlink_error {path : Path} (h : vfs.unlink path = (.error e, vfs')) : vfs' = vfs := by
  unfold unlink at h
  split at h
  · exact (Prod.mk.inj h).2.symm
  · split at h
    · exact (Prod.mk.inj h).2.symm
    · exact onDirectory_error h

theorem rmdir_error {path : Path} (h : vfs.rmdir path = (.error e, vfs')) : vfs' = vfs := by
  unfold rmdir at h
  split at h
  · exact (Prod.mk.inj h).2.symm
  · split at h
    · exact (Prod.mk.inj h).2.symm
    · exact onDirectory_error h

theorem rename_error {old new : Path} (h : vfs.rename old new = some (.error e, vfs')) :
    vfs' = vfs := by
  unfold rename at h
  split at h
  · exact (Prod.mk.inj (Option.some.inj h)).2.symm
  · split at h
    · exact (Prod.mk.inj (Option.some.inj h)).2.symm
    · split at h
      · exact (Prod.mk.inj (Option.some.inj h)).2.symm
      · split at h
        · exact (Prod.mk.inj (Option.some.inj h)).2.symm
        · exact renameIn_error h

theorem ftruncate_error {fd size : ℕ} {room : Bool}
    (h : vfs.ftruncate fd size room = (.error e, vfs')) : vfs' = vfs := by
  unfold ftruncate at h
  split at h
  · exact (Prod.mk.inj h).2.symm
  · split at h
    · exact (Prod.mk.inj h).2.symm
    · split at h
      · exact (Prod.mk.inj h).2.symm
      · exact (Prod.mk.inj h).2.symm
      · exact truncate_error h

/-- A failed call leaves the tree, the files, the descriptors and the offsets as they were, unless it is
an `open` that made or emptied a file, or an appending `write` that moved the offset. -/
theorem failsCleanly_iff (vfs : Vfs) (call : Call) : FailsCleanly vfs call ↔ ¬ Spoils vfs call := by
  -- the calls that undo nothing because they have done nothing
  have hclean : (∀ e vfs', vfs.perform call = some (.error e, vfs') → vfs' = vfs) →
      FailsCleanly vfs call := fun herror e vfs' h => .of_eq (herror e vfs' h)
  cases call with
  | «open» path flags => exact failsCleanly_open
  | write fd buf room => exact (failsCleanly_of_map rfl).trans write_unchanged_iff
  | mkdir path =>
    exact iff_of_true (hclean fun e vfs' h => mkdir_error (Option.some.inj h)) not_false
  | unlink path =>
    exact iff_of_true (hclean fun e vfs' h => unlink_error (Option.some.inj h)) not_false
  | rmdir path =>
    exact iff_of_true (hclean fun e vfs' h => rmdir_error (Option.some.inj h)) not_false
  | rename old new => exact iff_of_true (hclean fun e vfs' h => rename_error h) not_false
  | truncate inode size room =>
    exact iff_of_true (hclean fun e vfs' h => truncate_error (Option.some.inj h)) not_false
  | ftruncate fd size room =>
    exact iff_of_true (hclean fun e vfs' h => ftruncate_error (Option.some.inj h)) not_false

/-- A ramfs at the root and no open files. -/
def oneRamFs : Vfs where
  mounts := [⟨[slash], ⟨0, RamFs.rootIno⟩⟩]
  fileSystem _ := .ram (.withLimit 4096)
  files := ⟨⟨[]⟩, fun _ => none, 0⟩

/-- `open("/a", READ | CREATE | DIRECTORY)` answers `ENOTDIR` and leaves a file behind. -/
theorem not_failsCleanly_open :
    (oneRamFs.open [slash, 97] ((OpenFlags.read.or .create).or .directory)).1 = .error .ENOTDIR ∧
      ¬ FailsCleanly oneRamFs (.open [slash, 97] ((OpenFlags.read.or .create).or .directory)) := by
  have hcreates : Creates oneRamFs [slash, 97] ((OpenFlags.read.or .create).or .directory) := by
    exact ⟨by decide, rfl, ⟨⟨0, RamFs.rootIno⟩, [97], [slash, 97]⟩, .withLimit 4096, rfl, rfl, rfl⟩
  refine ⟨rfl, ?_⟩
  rw [failsCleanly_open, not_not]
  exact ⟨by decide, .inl ⟨hcreates, .inl (by decide)⟩⟩

end Vfs

end SaeOS.Fs
