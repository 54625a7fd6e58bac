import SaeOS.Fs.RamFsSpaceRun
import SaeOS.Fs.VfsAtomic

/-!
# What a change does to the directories

Creating, removing and renaming, seen from the directories: which entries can change (those that the
operation names), and what an entry that goes has led to. A removed or replaced inode has no entries of
its own; only the entry that `rename` moves takes a whole directory away.
-/

namespace SaeOS.Fs

namespace RamFs

variable {fs fs' : RamFs} {dir : ℕ} {name : Name}

/-- The entry, if there is one, leads to an inode without entries. -/
def Leaf (fs : RamFs) (d : ℕ) (n : Name) : Prop :=
  ∀ child, fs.entry d n = some child → ∀ m, fs.entry child m = none

/-- From one ramfs to another: an entry is put at a place of `put`, or goes from one of `cut`. What it
has led to has no entries, unless the change is one of those that take `whole` directories away. -/
structure Edit (fs fs' : RamFs) (put cut : ℕ → Name → Prop) (whole : Prop) : Prop where
  treeOk : fs'.TreeOk
  isDir : ∀ d, fs.isDir d = true → fs'.isDir d = true
  kept : ∀ d n, fs'.entry d n = fs.entry d n ∨ put d n ∧ fs.Leaf d n ∨
    cut d n ∧ fs'.entry d n = none ∧ (fs.Leaf d n ∨ whole)

/-- One place. -/
def At (dir : ℕ) (name : Name) (d : ℕ) (n : Name) : Prop :=
  d = dir ∧ n = name

/-- One place where no entry is. -/
def Free (fs : RamFs) (dir : ℕ) (name : Name) (d : ℕ) (n : Name) : Prop :=
  At dir name d n ∧ fs.entry d n = none

/-- No place. -/
def Nowhere (_ : ℕ) (_ : Name) : Prop :=
  False

theorem entry_of_not_isDir (h : fs.isDir dir = false) (n : Name) : fs.entry dir n = none := by
  by_contra hne
  obtain ⟨child, hchild⟩ := Option.ne_none_iff_exists'.mp hne
  exact Bool.false_ne_true (h.symm.trans (isDir_of_entry hchild))

theorem Edit.mono {put cut put' cut' : ℕ → Name → Prop} {whole : Prop} (h : Edit fs fs' put cut whole)
    (hput : ∀ d n, put d n → put' d n) (hcut : ∀ d n, cut d n → cut' d n) :
    Edit fs fs' put' cut' whole := by
  refine ⟨h.treeOk, h.isDir, fun d n => ?_⟩
  rcases h.kept d n with heq | ⟨hat, hbelow⟩ | ⟨hat, hrest⟩
  · exact .inl heq
  · exact .inr (.inl ⟨hput d n hat, hbelow⟩)
  · exact .inr (.inr ⟨hcut d n hat, hrest⟩)

/-- The same directories, whatever the files are. -/
theorem Edit.of_dir (h : fs.TreeOk) (hdir : fs'.dir = fs.dir) (hnext : fs'.nextIno = fs.nextIno)
    (hpresent : ∀ j, fs'.present j ↔ fs.present j) : Edit fs fs' Nowhere Nowhere False := by
  have hentry : ∀ d n, fs'.entry d n = fs.entry d n := by
    intro d n
    rw [RamFs.entry, RamFs.entries, hdir]
    rfl
  refine ⟨h.shrink (fun d n i hi => ?_) hnext hpresent (fun j => ?_) (fun j => ?_), fun d hd => ?_,
    fun d n => .inl (hentry d n)⟩
  · rwa [hentry] at hi
  · rw [RamFs.isDir, hdir, RamFs.isDir]
  · rw [RamFs.parentLink, hdir, RamFs.parentLink]
  · rwa [RamFs.isDir, hdir]

theorem create_edit {kind : InodeKind} {child : ℕ} (h : fs.TreeOk) (hdir : fs.isDir dir = true)
    (hcreate : fs.create dir name kind = .ok (child, fs')) :
    Edit fs fs' (Free fs dir name) Nowhere False := by
  obtain ⟨-, hcreated⟩ := h.created hdir hcreate
  refine ⟨h.of_created hdir hcreated, fun d hd => ?_, fun d n => ?_⟩
  · rw [hcreated.isDir d, hd]
    -- the number of the new inode was free
    rintro rfl
    exact absurd (h.lt_next _ (present_of_isDir hd)) (lt_irrefl _)
  · rw [hcreated.entry]
    split
    · rename_i hat
      obtain ⟨rfl, rfl⟩ := hat
      refine .inr (.inl ⟨⟨⟨rfl, rfl⟩, hcreated.free⟩, fun child hchild => ?_⟩)
      exact absurd (hcreated.free.symm.trans hchild) (by simp)
    · exact .inl rfl

theorem unlink_edit (h : fs.TreeOk) (hdir : fs.isDir dir = true) (hunlink : fs.unlink dir name = .ok fs') :
    Edit fs fs' Nowhere (At dir name) False := by
  obtain ⟨child, hchild, hfile, rfl⟩ := unlink_ok hunlink
  refine ⟨h.erase hdir, fun d hd => by rwa [isDir_mapEntries], fun d n => ?_⟩
  rw [entry_erase hdir]
  split
  · rename_i hat
    obtain ⟨rfl, rfl⟩ := hat
    refine .inr (.inr ⟨⟨rfl, rfl⟩, rfl, .inl fun child' hchild' => ?_⟩)
    obtain rfl := Option.some.inj (hchild.symm.trans hchild')
    exact entry_of_not_isDir hfile
  · exact .inl rfl

theorem rmdir_edit (h : fs.TreeOk) (hdir : fs.isDir dir = true) (hrmdir : fs.rmdir dir name = .ok fs') :
    Edit fs fs' Nowhere (At dir name) False := by
  obtain ⟨child, hchild, -, hempty, rfl⟩ := rmdir_ok hrmdir
  have hdir' : (fs.markDead child).isDir dir = true := by rwa [isDir_markDead]
  refine ⟨(h.markDead child).erase hdir', fun d hd => by rwa [isDir_mapEntries, isDir_markDead],
    fun d n => ?_⟩
  rw [entry_erase hdir', entry_markDead]
  split
  · rename_i hat
    obtain ⟨rfl, rfl⟩ := hat
    refine .inr (.inr ⟨⟨rfl, rfl⟩, rfl, .inl fun child' hchild' => ?_⟩)
    obtain rfl := Option.some.inj (hchild.symm.trans hchild')
    exact hempty
  · exact .inl rfl

/-- Moving an entry over a file or an empty directory. -/
theorem moveEntry_edit {r : Rename} {source : ℕ} (h : fs.TreeOk)
    (hentry : fs.entry r.self r.old = some source) (htarget : fs.isDir r.target = true)
    (hwithin : fs.isDir source = true → ¬ Forest.Within fs.up r.target source)
    (hreplaced : fs.Leaf r.target r.new) :
    Edit fs (fs.moveEntry r source) (At r.target r.new) (At r.self r.old) True := by
  refine ⟨h.moveEntry hentry htarget hwithin, fun d hd => by rwa [isDir_moveEntry], fun d n => ?_⟩
  rw [entry_moveEntry (isDir_of_entry hentry) htarget]
  split
  · rename_i hold
    exact .inr (.inr ⟨hold, rfl, .inr trivial⟩)
  split
  · rename_i hnew
    obtain ⟨rfl, rfl⟩ := hnew
    exact .inr (.inl ⟨⟨rfl, rfl⟩, hreplaced⟩)
  · exact .inl rfl

theorem rename_edit {r : Rename} (h : fs.TreeOk) (htarget : fs.isDir r.target = true)
    (hrename : fs.rename r = some (.ok fs')) :
    Edit fs fs' (At r.target r.new) (At r.self r.old) True := by
  obtain ⟨-, rfl⟩ | ⟨-, -, source, hsource, hwithin, hrenamed⟩ := rename_ok hrename
  · exact ⟨h, fun _ hd => hd, fun _ _ => .inl rfl⟩
  cases hrenamed with
  | plain hfile =>
    exact moveEntry_edit h hsource htarget hwithin fun child hchild =>
      entry_of_not_isDir (hfile child hchild)
  | @replacing existing hexisting hdir hempty =>
    have hmoved := @moveEntry_edit (fs.markDead existing) r source (h.markDead existing)
      (by rwa [entry_markDead]) (by rwa [isDir_markDead])
      (fun hd => by
        rw [up_markDead]
        exact hwithin (by rwa [isDir_markDead] at hd))
      (fun child hchild m => by
        rw [entry_markDead] at hchild ⊢
        obtain rfl := Option.some.inj (hexisting.symm.trans hchild)
        exact hempty m)
    refine ⟨hmoved.treeOk, fun d hd => hmoved.isDir d (by rwa [isDir_markDead]), fun d n => ?_⟩
    have hkept := hmoved.kept d n
    simp only [Leaf, entry_markDead] at hkept
    exact hkept

end RamFs

namespace Vfs

variable {vfs vfs' : Vfs} {inode : InodeRef} {name : Name}

/-! ## Directories of the mounted file systems -/

/-- The entry of a directory. -/
def entry (vfs : Vfs) (inode : InodeRef) (name : Name) : Option InodeRef :=
  match vfs.fileSystem inode.fs with
  | .ram fs => (fs.entry inode.ino name).map (InodeRef.mk inode.fs)
  | .fixed node =>
    match node inode.ino with
    | .directory entries => (entries.lookup name).map (InodeRef.mk inode.fs)
    | _ => none

/-- A file system whose directories are a tree, and whose root is in none of them. -/
def Tree : FileSystem → Prop
  | .ram fs => fs.TreeOk
  | .fixed node => ∀ i entries name, node i = .directory entries →
      entries.lookup name ≠ some RamFs.rootIno

theorem lookup_eq (h : vfs.kind inode = .directory) :
    vfs.lookup inode name = (vfs.entry inode name).elim (.error .ENOENT) .ok := by
  unfold Vfs.kind at h
  unfold lookup entry
  cases hfs : vfs.fileSystem inode.fs with
  | ram fs =>
    rw [hfs] at h
    dsimp only at h ⊢
    split at h
    · rename_i hdir
      rw [if_pos hdir, RamFs.lookup, RamFs.entry]
      cases (fs.entries inode.ino)[name]? <;> rfl
    · contradiction
  | fixed node =>
    rw [hfs] at h
    dsimp only at h ⊢
    cases hnode : node inode.ino with
    | directory entries =>
      dsimp only
      cases entries.lookup name <;> rfl
    | file => rw [hnode] at h; contradiction
    | device size write opened => rw [hnode] at h; contradiction

/-- An entry stays in its file system. -/
theorem fs_of_entry {child : InodeRef} (h : vfs.entry inode name = some child) :
    child.fs = inode.fs := by
  unfold entry at h
  split at h
  · obtain ⟨ino, -, rfl⟩ := Option.map_eq_some_iff.mp h
    rfl
  · split at h
    · obtain ⟨ino, -, rfl⟩ := Option.map_eq_some_iff.mp h
      rfl
    · contradiction

/-- No entry leads to a root. -/
theorem ino_of_entry {child : InodeRef} (htree : ∀ id, Tree (vfs.fileSystem id))
    (h : vfs.entry inode name = some child) : child.ino ≠ RamFs.rootIno := by
  have hfs := htree inode.fs
  unfold entry at h
  cases hsystem : vfs.fileSystem inode.fs with
  | ram fs =>
    rw [hsystem] at h hfs
    obtain ⟨ino, hino, rfl⟩ := Option.map_eq_some_iff.mp h
    exact (hfs.listed _ _ _ hino).1
  | fixed node =>
    rw [hsystem] at h hfs
    dsimp only at h
    split at h
    · rename_i entries hnode
      obtain ⟨ino, hino, rfl⟩ := Option.map_eq_some_iff.mp h
      rintro rfl
      exact hfs inode.ino entries name hnode hino
    · contradiction

/-- The entry, if there is one, leads to an inode without entries. -/
def Leaf (vfs : Vfs) (d : InodeRef) (n : Name) : Prop :=
  ∀ child, vfs.entry d n = some child → ∀ m, vfs.entry child m = none

/-- From one state to another, as for a single ramfs. -/
structure Edit (vfs vfs' : Vfs) (put cut : InodeRef → Name → Prop) (whole : Prop) : Prop where
  mounts : vfs'.mounts = vfs.mounts
  fixed : ∀ id node, vfs.fileSystem id = .fixed node → vfs'.fileSystem id = .fixed node
  ram : ∀ id fs, vfs.fileSystem id = .ram fs → ∃ fs', vfs'.fileSystem id = .ram fs'
  tree : ∀ id, Tree (vfs'.fileSystem id)
  kind : ∀ d, vfs.kind d = .directory → vfs'.kind d = .directory
  kept : ∀ d n, vfs'.entry d n = vfs.entry d n ∨ put d n ∧ vfs.Leaf d n ∨
    cut d n ∧ vfs'.entry d n = none ∧ (vfs.Leaf d n ∨ whole)

namespace Edit

theorem refl (htree : ∀ id, Tree (vfs.fileSystem id)) (put cut : InodeRef → Name → Prop)
    (whole : Prop) : Edit vfs vfs put cut whole :=
  ⟨rfl, fun _ _ h => h, fun _ fs h => ⟨fs, h⟩, htree, fun _ h => h, fun _ _ => .inl rfl⟩

/-- The other file systems are as they were. -/
theorem setRam {fs fs' : RamFs} {id : ℕ} {put cut : ℕ → Name → Prop} {whole : Prop}
    (htree : ∀ id, Tree (vfs.fileSystem id)) (hfs : vfs.fileSystem id = .ram fs)
    (h : RamFs.Edit fs fs' put cut whole) :
    Edit vfs (vfs.setRam id fs') (fun d n => d.fs = id ∧ put d.ino n)
      (fun d n => d.fs = id ∧ cut d.ino n) whole := by
  refine ⟨rfl, fun other node hother => ?_, fun other fs₁ hother => ?_, fun other => ?_,
    fun d hkind => ?_, fun d n => ?_⟩
  · rw [setRam_fileSystem_of_ne, hother]
    rintro rfl
    exact absurd (hfs.symm.trans hother) (by simp)
  · by_cases heq : other = id
    · exact ⟨fs', by rw [heq, setRam_fileSystem]⟩
    · exact ⟨fs₁, by rw [setRam_fileSystem_of_ne heq, hother]⟩
  · by_cases hother : other = id
    · rw [hother, setRam_fileSystem]
      exact h.treeOk
    · rw [setRam_fileSystem_of_ne hother]
      exact htree other
  · by_cases hd : d.fs = id
    · have hdir := h.isDir d.ino (isDir_of_kind (hd ▸ hfs) hkind)
      rw [Vfs.kind, hd, setRam_fileSystem]
      exact if_pos hdir
    · rwa [Vfs.kind, setRam_fileSystem_of_ne hd]
  · by_cases hd : d.fs = id
    · have hentry : ∀ n, vfs.entry d n = (fs.entry d.ino n).map (InodeRef.mk id) := by
        intro n
        rw [entry, hd, hfs]
      have hentry' : (vfs.setRam id fs').entry d n = (fs'.entry d.ino n).map (InodeRef.mk id) := by
        rw [entry, hd, setRam_fileSystem]
      have hleaf : fs.Leaf d.ino n → vfs.Leaf d n := by
        intro hleaf child hchild m
        rw [hentry] at hchild
        obtain ⟨ino, hino, rfl⟩ := Option.map_eq_some_iff.mp hchild
        rw [entry, hfs]
        dsimp only
        rw [hleaf ino hino m]
        rfl
      rcases h.kept d.ino n with heq | ⟨hput, hbelow⟩ | ⟨hcut, hnone, hbelow⟩
      · left
        rw [hentry', hentry, heq]
      · exact .inr (.inl ⟨⟨hd, hput⟩, hleaf hbelow⟩)
      · exact .inr (.inr ⟨⟨hd, hcut⟩, by rw [hentry', hnone]; rfl, hbelow.imp_left hleaf⟩)
    · left
      rw [entry, setRam_fileSystem_of_ne hd, entry]

variable {put cut put' cut' : InodeRef → Name → Prop} {whole : Prop}

/-- A change of the files' data after it. -/
theorem trans {vfs'' : Vfs} (h : Edit vfs vfs' put cut whole)
    (h' : Edit vfs' vfs'' (fun _ _ => False) (fun _ _ => False) False) :
    Edit vfs vfs'' put cut whole := by
  refine ⟨h'.mounts.trans h.mounts, fun id node hnode => h'.fixed id node (h.fixed id node hnode),
    fun id fs hfs => ?_, h'.tree, fun d hd => h'.kind d (h.kind d hd), fun d n => ?_⟩
  · obtain ⟨fs', hfs'⟩ := h.ram id fs hfs
    exact h'.ram id fs' hfs'
  · rcases h'.kept d n with heq | ⟨hfalse, -⟩ | ⟨hfalse, -⟩
    · rw [heq]
      exact h.kept d n
    · exact hfalse.elim
    · exact hfalse.elim

theorem mono (h : Edit vfs vfs' put cut whole) (hput : ∀ d n, put d n → put' d n)
    (hcut : ∀ d n, cut d n → cut' d n) : Edit vfs vfs' put' cut' whole := by
  refine ⟨h.mounts, h.fixed, h.ram, h.tree, h.kind, fun d n => ?_⟩
  rcases h.kept d n with heq | ⟨hat, hbelow⟩ | ⟨hat, hrest⟩
  · exact .inl heq
  · exact .inr (.inl ⟨hput d n hat, hbelow⟩)
  · exact .inr (.inr ⟨hcut d n hat, hrest⟩)

end Edit

/-! ### The methods of an inode -/

/-- One place. -/
def At (inode : InodeRef) (name : Name) (d : InodeRef) (n : Name) : Prop :=
  d = inode ∧ n = name

/-- One place where no entry is. -/
def Free (vfs : Vfs) (inode : InodeRef) (name : Name) (d : InodeRef) (n : Name) : Prop :=
  At inode name d n ∧ vfs.entry d n = none

/-- No place. -/
def Nowhere (_ : InodeRef) (_ : Name) : Prop :=
  False

theorem at_of_ino {d : InodeRef} {n : Name} (h : d.fs = inode.fs ∧ RamFs.At inode.ino name d.ino n) :
    At inode name d n := by
  obtain ⟨hfs, hino, hname⟩ := h
  refine ⟨?_, hname⟩
  cases d
  cases inode
  exact congrArg₂ InodeRef.mk hfs hino

/-- A method of a directory of a ramfs that edits that ramfs. -/
theorem onDirectory_edit {α : Type} {method : RamFs → Except Errno (α × RamFs)}
    {answer : Except Errno α} {put cut : ℕ → Name → Prop} (htree : ∀ id, Tree (vfs.fileSystem id))
    (hmethod : ∀ fs answer fs', vfs.fileSystem inode.fs = .ram fs → fs.TreeOk →
      fs.isDir inode.ino = true → method fs = .ok (answer, fs') → RamFs.Edit fs fs' put cut False)
    (h : vfs.onDirectory inode method = (answer, vfs')) :
    Edit vfs vfs' (fun d n => d.fs = inode.fs ∧ put d.ino n) (fun d n => d.fs = inode.fs ∧ cut d.ino n)
      False := by
  unfold onDirectory at h
  cases hfs : vfs.fileSystem inode.fs with
  | ram fs =>
    have hok : fs.TreeOk := by
      have hsystem := htree inode.fs
      rwa [hfs] at hsystem
    rw [hfs] at h
    dsimp only at h
    by_cases hdir : fs.isDir inode.ino = true
    · rw [if_pos hdir] at h
      cases hcall : method fs with
      | ok result =>
        obtain ⟨value, fs'⟩ := result
        rw [hcall] at h
        obtain ⟨-, rfl⟩ := Prod.mk.inj h
        exact .setRam htree hfs (hmethod fs value fs' hfs hok hdir hcall)
      | error e =>
        rw [hcall] at h
        obtain ⟨-, rfl⟩ := Prod.mk.inj h
        exact .refl htree _ _ _
    · rw [if_neg hdir] at h
      obtain ⟨-, rfl⟩ := Prod.mk.inj h
      exact .refl htree _ _ _
  | fixed node =>
    rw [hfs] at h
    dsimp only at h
    split at h <;>
    · obtain ⟨-, rfl⟩ := Prod.mk.inj h
      exact .refl htree _ _ _

theorem createIn_edit {kind : InodeKind} {answer : Except Errno InodeRef}
    (htree : ∀ id, Tree (vfs.fileSystem id)) (h : vfs.createIn inode name kind = (answer, vfs')) :
    Edit vfs vfs' (vfs.Free inode name) Nowhere False := by
  refine (@onDirectory_edit _ _ inode _ _ _
    (fun d n => RamFs.At inode.ino name d n ∧ vfs.entry ⟨inode.fs, d⟩ n = none) RamFs.Nowhere htree
    (fun fs value fs' hfs hok hdir hcall => ?_) h).mono (fun d n hfree => ?_) fun d n hnone => hnone.2
  rotate_left
  · obtain ⟨hsame, hat, hnone⟩ := hfree
    rw [← hsame] at hnone
    exact ⟨at_of_ino ⟨hsame, hat⟩, hnone⟩
  cases hcheck : checkName name with
  | error e =>
    rw [hcheck] at hcall
    contradiction
  | ok u =>
    rw [hcheck] at hcall
    simp only [bind, Except.bind, pure, Except.pure] at hcall
    cases hcreate : fs.create inode.ino name kind with
    | error e =>
      rw [hcreate] at hcall
      contradiction
    | ok created =>
      rw [hcreate] at hcall
      obtain ⟨-, rfl⟩ := Prod.mk.inj (Except.ok.inj hcall)
      refine (RamFs.create_edit hok hdir hcreate).mono (fun d n hfree => ⟨hfree.1, ?_⟩)
        fun _ _ hnone => hnone
      rw [entry, hfs]
      exact congrArg (Option.map (InodeRef.mk inode.fs)) hfree.2

/-- A method without a value. -/
theorem ok_of_map {method : Except Errno RamFs} {fs' : RamFs} {value : Unit}
    (h : method.map (Prod.mk ()) = .ok (value, fs')) : method = .ok fs' := by
  cases method with
  | error e => contradiction
  | ok fs =>
    obtain ⟨-, rfl⟩ := Prod.mk.inj (Except.ok.inj h)
    rfl

theorem unlinkIn_edit {answer : Except Errno Unit} (htree : ∀ id, Tree (vfs.fileSystem id))
    (h : vfs.unlinkIn inode name = (answer, vfs')) : Edit vfs vfs' Nowhere (At inode name) False :=
  (onDirectory_edit htree
    (fun _ _ _ _ hok hdir hcall => RamFs.unlink_edit hok hdir (ok_of_map hcall)) h).mono
    (fun _ _ hnone => hnone.2) fun _ _ => at_of_ino

theorem rmdirIn_edit {answer : Except Errno Unit} (htree : ∀ id, Tree (vfs.fileSystem id))
    (h : vfs.rmdirIn inode name = (answer, vfs')) : Edit vfs vfs' Nowhere (At inode name) False :=
  (onDirectory_edit htree
    (fun _ _ _ _ hok hdir hcall => RamFs.rmdir_edit hok hdir (ok_of_map hcall)) h).mono
    (fun _ _ hnone => hnone.2) fun _ _ => at_of_ino

/-- Both directories are in the same file system. -/
theorem renameIn_edit {old new : Name} {target : InodeRef} {answer : Except Errno Unit}
    (htree : ∀ id, Tree (vfs.fileSystem id)) (hfs : target.fs = inode.fs)
    (hkind : vfs.kind target = .directory)
    (h : vfs.renameIn inode old target new = some (answer, vfs')) :
    Edit vfs vfs' (At target new) (At inode old) True := by
  unfold renameIn at h
  cases hsystem : vfs.fileSystem inode.fs with
  | ram fs =>
    have hok : fs.TreeOk := by
      have hsound := htree inode.fs
      rwa [hsystem] at hsound
    have hdir := isDir_of_kind (hfs ▸ hsystem) hkind
    rw [hsystem] at h
    dsimp only at h
    cases hcheck : checkName new with
    | error e =>
      rw [hcheck] at h
      obtain ⟨-, rfl⟩ := Prod.mk.inj (Option.some.inj h)
      exact .refl htree _ _ _
    | ok u =>
      rw [hcheck] at h
      obtain ⟨result, hrename, hanswer⟩ := Option.bind_eq_some_iff.mp h
      cases result with
      | error e =>
        obtain ⟨-, rfl⟩ := Prod.mk.inj (Option.some.inj hanswer)
        exact .refl htree _ _ _
      | ok fs' =>
        obtain ⟨-, rfl⟩ := Prod.mk.inj (Option.some.inj hanswer)
        exact (Edit.setRam htree hsystem (RamFs.rename_edit hok hdir hrename)).mono
          (fun d n hat => at_of_ino ⟨hat.1.trans hfs.symm, hat.2⟩) fun d n => at_of_ino
  | fixed node =>
    rw [hsystem] at h
    dsimp only at h
    split at h <;>
    · obtain ⟨-, rfl⟩ := Prod.mk.inj (Option.some.inj h)
      exact .refl htree _ _ _

end Vfs

end SaeOS.Fs
