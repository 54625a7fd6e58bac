import SaeOS.Fs.DirectoryEdits

/-!
# What a call of the VFS does to the directories

Every call that changes something, as an edit of the directories: which entries it can put or cut, given
the paths that it resolves. `unlink`, `rmdir` and `rename` refuse the path of a mount; a new entry is put
where none is.
-/

namespace SaeOS.Fs

/-! ## File data -/

namespace RamFs

variable {fs fs' : RamFs} {ino : ℕ}

/-- Resizing moves the counter. -/
theorem resize_used {data : List UInt8} {newLength : ℕ} {room : Bool}
    {answer : Except Errno (List UInt8)} (h : fs.resize data newLength room = (answer, fs')) :
    ∃ used, fs' = { fs with used } := by
  unfold resize at h
  dsimp only at h
  split at h
  · cases hreserve : fs.reserve (newLength - data.length) with
    | error e =>
      rw [hreserve] at h
      exact ⟨fs.used, (Prod.mk.inj h).2.symm⟩
    | ok reserved =>
      rw [hreserve] at h
      unfold reserve at hreserve
      split at hreserve
      · obtain rfl := Except.ok.inj hreserve
        dsimp only at h
        split at h <;> exact ⟨_, (Prod.mk.inj h).2.symm⟩
      · contradiction
  · exact ⟨_, (Prod.mk.inj h).2.symm⟩

/-- Other data in a file. -/
theorem setData_edit {used : ℕ} {data data' : List UInt8} (h : fs.TreeOk)
    (hfile : fs.node ino = some (.file data)) :
    Edit fs ({ fs with used }.setData ino data') Nowhere Nowhere False := by
  have hold : fs.dir ino = none := by
    rw [dir, hfile]
    rfl
  refine .of_dir h ?_ rfl fun j => ?_
  · rw [setData, dir_setNode]
    exact (congrArg (Function.update fs.dir ino) hold.symm).trans (Function.update_eq_self _ _)
  · by_cases hj : j = ino
    · rw [hj, present, present, hfile, setData, setNode]
      dsimp only
      rw [Function.update_self]
      exact iff_of_true rfl rfl
    · rw [present, present, setData, setNode]
      dsimp only
      rw [Function.update_of_ne hj]

theorem Edit.refl (h : fs.TreeOk) (put cut : ℕ → Name → Prop) (whole : Prop) :
    Edit fs fs put cut whole :=
  ⟨h, fun _ hd => hd, fun _ _ => .inl rfl⟩

theorem writeAt_edit {offset : ℕ} {buf : List UInt8} {room : Bool} {answer : Except Errno ℕ}
    (h : fs.TreeOk) (hwrite : fs.writeAt ino offset buf room = (answer, fs')) :
    Edit fs fs' Nowhere Nowhere False := by
  cases answer with
  | error e =>
    rw [writeAt_error hwrite]
    exact .refl h _ _ _
  | ok count =>
    unfold writeAt at hwrite
    split at hwrite
    · rename_i data hdata
      dsimp only at hwrite
      split at hwrite
      · exact absurd (Prod.mk.inj hwrite).1 (by simp)
      · split at hwrite
        · exact absurd (Prod.mk.inj hwrite).1 (by simp)
        · rename_i data' fs₁ hgrown
          obtain rfl := (Prod.mk.inj hwrite).2
          have hused : ∃ used, fs₁ = { fs with used } := by
            split at hgrown
            · exact resize_used hgrown
            · exact ⟨fs.used, (Prod.mk.inj hgrown).2.symm⟩
          obtain ⟨used, rfl⟩ := hused
          exact setData_edit h hdata
    · exact absurd (Prod.mk.inj hwrite).1 (by simp)

theorem truncate_edit {size : ℕ} {room : Bool} {answer : Except Errno Unit} (h : fs.TreeOk)
    (htruncate : fs.truncate ino size room = (answer, fs')) : Edit fs fs' Nowhere Nowhere False := by
  cases answer with
  | error e =>
    rw [truncate_error htruncate]
    exact .refl h _ _ _
  | ok u =>
    unfold truncate at htruncate
    split at htruncate
    · rename_i data hdata
      split at htruncate
      · exact absurd (Prod.mk.inj htruncate).1 (by simp)
      · split at htruncate
        · exact absurd (Prod.mk.inj htruncate).1 (by simp)
        · rename_i data' fs₁ hresize
          obtain rfl := (Prod.mk.inj htruncate).2
          obtain ⟨used, rfl⟩ := resize_used hresize
          exact setData_edit h hdata
    · exact absurd (Prod.mk.inj htruncate).1 (by simp)

end RamFs

namespace Vfs

variable {vfs vfs' : Vfs} {inode : InodeRef}

/-- Only the open files are others. -/
theorem Edit.of_files (htree : ∀ id, Tree (vfs.fileSystem id)) (files : Files InodeRef) :
    Edit vfs { vfs with files } Nowhere Nowhere False :=
  ⟨rfl, fun _ _ h => h, fun _ fs h => ⟨fs, h⟩, htree, fun _ h => h, fun _ _ => .inl rfl⟩

theorem Edit.setRam_nowhere {fs fs' : RamFs} {id : ℕ} (htree : ∀ i, Tree (vfs.fileSystem i))
    (hfs : vfs.fileSystem id = .ram fs) (h : RamFs.Edit fs fs' RamFs.Nowhere RamFs.Nowhere False) :
    Edit vfs (vfs.setRam id fs') Nowhere Nowhere False :=
  (Edit.setRam htree hfs h).mono (fun _ _ hnone => hnone.2) fun _ _ hnone => hnone.2

theorem treeOk_of_ram {fs : RamFs} {id : ℕ} (htree : ∀ i, Tree (vfs.fileSystem i))
    (hfs : vfs.fileSystem id = .ram fs) : fs.TreeOk := by
  have hsystem := htree id
  rwa [hfs] at hsystem

theorem writeAt_edit {offset : ℕ} {buf : List UInt8} {room : Bool} {answer : Except Errno ℕ}
    (htree : ∀ id, Tree (vfs.fileSystem id)) (h : vfs.writeAt inode offset buf room = (answer, vfs')) :
    Edit vfs vfs' Nowhere Nowhere False := by
  unfold writeAt at h
  cases hfs : vfs.fileSystem inode.fs with
  | ram fs =>
    rw [hfs] at h
    obtain ⟨-, rfl⟩ := Prod.mk.inj h
    exact .setRam_nowhere htree hfs (RamFs.writeAt_edit (treeOk_of_ram htree hfs) rfl)
  | fixed node =>
    rw [hfs] at h
    dsimp only at h
    split at h <;>
    · obtain ⟨-, rfl⟩ := Prod.mk.inj h
      exact .refl htree _ _ _

theorem truncate_edit {size : ℕ} {room : Bool} {answer : Except Errno Unit}
    (htree : ∀ id, Tree (vfs.fileSystem id)) (h : vfs.truncate inode size room = (answer, vfs')) :
    Edit vfs vfs' Nowhere Nowhere False := by
  unfold truncate at h
  cases hfs : vfs.fileSystem inode.fs with
  | ram fs =>
    rw [hfs] at h
    obtain ⟨-, rfl⟩ := Prod.mk.inj h
    exact .setRam_nowhere htree hfs (RamFs.truncate_edit (treeOk_of_ram htree hfs) rfl)
  | fixed node =>
    rw [hfs] at h
    dsimp only at h
    split at h <;>
    · obtain ⟨-, rfl⟩ := Prod.mk.inj h
      exact .refl htree _ _ _

/-! ## Whole calls -/

variable {call : Call} {e : Errno}

/-- A place that a call may name: its path is not the path of a mount. -/
def Unprotected (vfs : Vfs) (d : InodeRef) (n : Name) : Prop :=
  ∃ path parent, vfs.parent path = .ok parent ∧ vfs.isMountPoint parent.path = false ∧
    At parent.directory parent.name d n

/-- The place from which a `rename` that goes through takes an entry to another place. -/
def Moves (vfs : Vfs) (call : Call) (d : InodeRef) (n : Name) : Prop :=
  ∃ old new source target vfs', call = .rename old new ∧ vfs.parent old = .ok source ∧
    vfs.parent new = .ok target ∧ vfs.rename old new = some (.ok (), vfs') ∧
    vfs.isMountPoint source.path = false ∧
    ¬ At source.directory source.name target.directory target.name ∧
    At source.directory source.name d n

/-- What is known of a call's edit. -/
def CallEdit (vfs vfs' : Vfs) (call : Call) : Prop :=
  ∃ put cut whole, Edit vfs vfs' put cut whole ∧
    (∀ d n, put d n → vfs.entry d n = none ∨ Unprotected vfs d n) ∧
    (∀ d n, cut d n → Unprotected vfs d n) ∧ (whole → ∀ d n, cut d n → Moves vfs call d n)

theorem CallEdit.of_nowhere (h : Edit vfs vfs' Nowhere Nowhere False) : CallEdit vfs vfs' call :=
  ⟨_, _, _, h, fun _ _ hnone => hnone.elim, fun _ _ hnone => hnone.elim, False.elim⟩

theorem CallEdit.of_eq (htree : ∀ id, Tree (vfs.fileSystem id)) (h : vfs' = vfs) :
    CallEdit vfs vfs' call := by
  rw [h]
  exact .of_nowhere (.refl htree _ _ _)

theorem CallEdit.of_create {inode : InodeRef} {name : Name}
    (h : Edit vfs vfs' (vfs.Free inode name) Nowhere False) : CallEdit vfs vfs' call :=
  ⟨_, _, _, h, fun _ _ hfree => .inl hfree.2, fun _ _ hnone => hnone.elim, False.elim⟩

theorem CallEdit.of_remove {path : Path} {parent : Parent} (hparent : vfs.parent path = .ok parent)
    (hmount : vfs.isMountPoint parent.path = false)
    (h : Edit vfs vfs' Nowhere (At parent.directory parent.name) False) : CallEdit vfs vfs' call :=
  ⟨_, _, _, h, fun _ _ hnone => hnone.elim, fun _ _ hat => ⟨path, parent, hparent, hmount, hat⟩,
    False.elim⟩

/-- The inode that `open` works on is there, or a new file. -/
theorem openInode_edit {path : Path} {flags : OpenFlags} {answer : Except Errno InodeRef}
    (htree : ∀ id, Tree (vfs.fileSystem id)) (h : vfs.openInode path flags = (answer, vfs')) :
    vfs' = vfs ∨ ∃ inode name, Edit vfs vfs' (vfs.Free inode name) Nowhere False := by
  unfold openInode at h
  split at h
  · split at h <;> exact .inl (Prod.mk.inj h).2.symm
  · split at h
    · split at h
      · exact .inl (Prod.mk.inj h).2.symm
      · rename_i parent hparent
        right
        refine ⟨parent.directory, parent.name, ?_⟩
        cases hcreate : vfs.createIn parent.directory parent.name .file with
        | mk created vfs₁ =>
          have hedit := createIn_edit htree hcreate
          rw [hcreate] at h
          cases created with
          | ok inode =>
            obtain rfl := (Prod.mk.inj h).2
            exact hedit
          | error e =>
            dsimp only at h
            split at h <;>
            · obtain rfl := (Prod.mk.inj h).2
              exact hedit
    · exact .inl (Prod.mk.inj h).2.symm

theorem prepare_edit {flags : OpenFlags} {answer : Except Errno Unit}
    (htree : ∀ id, Tree (vfs.fileSystem id)) (h : vfs.prepare inode flags = (answer, vfs')) :
    Edit vfs vfs' Nowhere Nowhere False := by
  unfold prepare at h
  split at h
  · split at h <;>
    · obtain rfl := (Prod.mk.inj h).2
      exact .refl htree _ _ _
  · split at h
    · obtain rfl := (Prod.mk.inj h).2
      exact .refl htree _ _ _
    · split at h
      · exact truncate_edit htree h
      · obtain rfl := (Prod.mk.inj h).2
        exact .refl htree _ _ _
  · split at h <;>
    · obtain rfl := (Prod.mk.inj h).2
      exact .refl htree _ _ _

theorem install_edit {flags : OpenFlags} {answer : Except Errno ℕ}
    (htree : ∀ id, Tree (vfs.fileSystem id)) (h : vfs.install inode flags = (answer, vfs')) :
    Edit vfs vfs' Nowhere Nowhere False := by
  unfold install at h
  split at h
  · obtain rfl := (Prod.mk.inj h).2
    exact .refl htree _ _ _
  · obtain rfl := (Prod.mk.inj h).2
    exact .of_files htree _

theorem finishOpen_edit {flags : OpenFlags} {answer : Except Errno ℕ}
    (htree : ∀ id, Tree (vfs.fileSystem id)) (h : vfs.finishOpen inode flags = (answer, vfs')) :
    Edit vfs vfs' Nowhere Nowhere False := by
  unfold finishOpen at h
  split at h
  · rename_i hprepare
    obtain rfl := (Prod.mk.inj h).2
    exact prepare_edit htree hprepare
  · rename_i hprepare
    have hedit := prepare_edit htree hprepare
    split at h
    · obtain rfl := (Prod.mk.inj h).2
      exact hedit
    · exact hedit.trans (install_edit hedit.tree h)

theorem open_edit {path : Path} {flags : OpenFlags} {answer : Except Errno ℕ}
    (htree : ∀ id, Tree (vfs.fileSystem id)) (h : vfs.open path flags = (answer, vfs')) :
    CallEdit vfs vfs' call := by
  by_cases hflags : flags.contains .read = true ∨ flags.contains .write = true
  · rw [open_eq hflags] at h
    rcases hopen : vfs.openInode path flags with ⟨inode, vfs₁⟩
    rw [hopen] at h
    rcases openInode_edit htree hopen with rfl | ⟨directory, name, hedit⟩
    · cases inode with
      | error e => exact .of_eq htree (Prod.mk.inj h).2.symm
      | ok inode => exact .of_nowhere (finishOpen_edit htree h)
    · cases inode with
      | error e =>
        obtain rfl := (Prod.mk.inj h).2
        exact .of_create hedit
      | ok inode => exact .of_create (hedit.trans (finishOpen_edit hedit.tree h))
  · rw [«open», if_pos (by tauto)] at h
    exact .of_eq htree (Prod.mk.inj h).2.symm

theorem write_edit {fd : ℕ} {buf : List UInt8} {room : Bool} {answer : Except Errno ℕ}
    (htree : ∀ id, Tree (vfs.fileSystem id)) (h : vfs.write fd buf room = (answer, vfs')) :
    Edit vfs vfs' Nowhere Nowhere False := by
  unfold write at h
  split at h
  · obtain rfl := (Prod.mk.inj h).2
    exact .refl htree _ _ _
  · rename_i id file hget
    split at h
    · obtain rfl := (Prod.mk.inj h).2
      exact .refl htree _ _ _
    · dsimp only at h
      -- the offset may move before the data is written, and after
      have hbefore : Edit vfs (if file.flags.contains .append then
          vfs.setOffset id (if file.flags.contains .append then vfs.size file.inode else file.offset)
          else vfs) Nowhere Nowhere False := by
        split
        · exact .of_files htree _
        · exact .refl htree _ _ _
      split at h
      · rename_i hwrite
        obtain rfl := (Prod.mk.inj h).2
        exact hbefore.trans (writeAt_edit hbefore.tree hwrite)
      · rename_i hwrite
        obtain rfl := (Prod.mk.inj h).2
        have hwritten := hbefore.trans (writeAt_edit hbefore.tree hwrite)
        exact hwritten.trans (.of_files hwritten.tree _)

theorem mkdir_edit {path : Path} {answer : Except Errno Unit}
    (htree : ∀ id, Tree (vfs.fileSystem id)) (h : vfs.mkdir path = (answer, vfs')) :
    CallEdit vfs vfs' call := by
  unfold mkdir at h
  split at h
  · exact .of_eq htree (Prod.mk.inj h).2.symm
  · obtain rfl := (Prod.mk.inj h).2
    exact .of_create (createIn_edit htree rfl)

theorem unlink_edit {path : Path} {answer : Except Errno Unit}
    (htree : ∀ id, Tree (vfs.fileSystem id)) (h : vfs.unlink path = (answer, vfs')) :
    CallEdit vfs vfs' call := by
  unfold unlink at h
  split at h
  · exact .of_eq htree (Prod.mk.inj h).2.symm
  · rename_i parent hparent
    split at h
    · exact .of_eq htree (Prod.mk.inj h).2.symm
    · rename_i hmount
      exact .of_remove hparent (eq_false_of_ne_true hmount) (unlinkIn_edit htree h)

theorem rmdir_edit {path : Path} {answer : Except Errno Unit}
    (htree : ∀ id, Tree (vfs.fileSystem id)) (h : vfs.rmdir path = (answer, vfs')) :
    CallEdit vfs vfs' call := by
  unfold rmdir at h
  split at h
  · exact .of_eq htree (Prod.mk.inj h).2.symm
  · rename_i parent hparent
    split at h
    · exact .of_eq htree (Prod.mk.inj h).2.symm
    · rename_i hmount
      exact .of_remove hparent (eq_false_of_ne_true hmount) (rmdirIn_edit htree h)

/-- An entry that is renamed to itself stays. -/
theorem renameIn_same {name : Name} (h : vfs.renameIn inode name inode name = some (.ok (), vfs')) :
    vfs' = vfs := by
  unfold renameIn at h
  cases hfs : vfs.fileSystem inode.fs with
  | ram fs =>
    rw [hfs] at h
    dsimp only at h
    split at h
    · exact absurd (Prod.mk.inj (Option.some.inj h)).1 (by simp)
    · obtain ⟨result, hrename, hanswer⟩ := Option.bind_eq_some_iff.mp h
      rw [RamFs.rename, if_pos ⟨rfl, rfl⟩] at hrename
      cases hlookup : fs.lookup inode.ino name with
      | error e =>
        rw [hlookup] at hrename
        obtain rfl := Option.some.inj hrename
        exact absurd (Prod.mk.inj (Option.some.inj hanswer)).1 (by simp)
      | ok child =>
        rw [hlookup] at hrename
        obtain rfl := Option.some.inj hrename
        obtain rfl := (Prod.mk.inj (Option.some.inj hanswer)).2
        exact setRam_self hfs
  | fixed node =>
    rw [hfs] at h
    dsimp only at h
    split at h <;> exact absurd (Prod.mk.inj (Option.some.inj h)).1 (by simp)

/-- An entry that is renamed to another place goes. -/
theorem renameIn_moved {old new : Name} {target : InodeRef} (hfs : target.fs = inode.fs)
    (hne : ¬ At inode old target new) (hkind : vfs.kind target = .directory)
    (h : vfs.renameIn inode old target new = some (.ok (), vfs')) :
    (∃ child, vfs.entry inode old = some child) ∧ vfs'.entry inode old = none := by
  unfold renameIn at h
  cases hsystem : vfs.fileSystem inode.fs with
  | ram fs =>
    have htarget := isDir_of_kind (hfs ▸ hsystem) hkind
    rw [hsystem] at h
    dsimp only at h
    split at h
    · exact absurd (Prod.mk.inj (Option.some.inj h)).1 (by simp)
    · obtain ⟨result, hrename, hanswer⟩ := Option.bind_eq_some_iff.mp h
      cases result with
      | error e => exact absurd (Prod.mk.inj (Option.some.inj hanswer)).1 (by simp)
      | ok fs' =>
        obtain rfl := (Prod.mk.inj (Option.some.inj hanswer)).2
        have hsource : ∀ {child}, fs.entry inode.ino old = some child →
            ∃ child, vfs.entry inode old = some child := by
          intro child hchild
          refine ⟨⟨inode.fs, child⟩, ?_⟩
          rw [entry, hsystem]
          exact congrArg (Option.map (InodeRef.mk inode.fs)) hchild
        have hgone : fs'.entry inode.ino old = none → (vfs.setRam inode.fs fs').entry inode old = none := by
          intro hnone
          rw [entry, setRam_fileSystem]
          exact congrArg (Option.map (InodeRef.mk inode.fs)) hnone
        rcases RamFs.rename_ok hrename with ⟨⟨hino, hname⟩, -⟩ | ⟨-, -, child, hchild, -, hrenamed⟩
        · refine absurd (at_of_ino ⟨hfs.symm, hino, hname⟩ : At target new inode old) fun hat => hne ?_
          exact ⟨hat.1.symm, hat.2.symm⟩
        · refine ⟨hsource hchild, hgone ?_⟩
          have hself := RamFs.isDir_of_entry hchild
          cases hrenamed with
          | plain =>
            rw [RamFs.entry_moveEntry hself htarget]
            exact if_pos ⟨rfl, rfl⟩
          | replacing =>
            rw [RamFs.entry_moveEntry (by rwa [RamFs.isDir_markDead]) (by rwa [RamFs.isDir_markDead])]
            exact if_pos ⟨rfl, rfl⟩
  | fixed node =>
    rw [hsystem] at h
    dsimp only at h
    split at h <;> exact absurd (Prod.mk.inj (Option.some.inj h)).1 (by simp)

/-- A `rename` that goes through has renamed in one file system. -/
theorem rename_ok {old new : Path} (h : vfs.rename old new = some (.ok (), vfs')) :
    ∃ source target, vfs.parent old = .ok source ∧ vfs.parent new = .ok target ∧
      vfs.isMountPoint source.path = false ∧ vfs.isMountPoint target.path = false ∧
      target.directory.fs = source.directory.fs ∧ vfs.kind target.directory = .directory ∧
      vfs.renameIn source.directory source.name target.directory target.name =
        some (.ok (), vfs') := by
  unfold rename at h
  split at h
  · exact absurd (Prod.mk.inj (Option.some.inj h)).1 (by simp)
  rename_i source hsource
  split at h
  · exact absurd (Prod.mk.inj (Option.some.inj h)).1 (by simp)
  rename_i target htarget
  split at h
  · exact absurd (Prod.mk.inj (Option.some.inj h)).1 (by simp)
  rename_i hmounts
  split at h
  · exact absurd (Prod.mk.inj (Option.some.inj h)).1 (by simp)
  rename_i hfs
  rw [not_or, Bool.not_eq_true, Bool.not_eq_true] at hmounts
  obtain ⟨-, -, -, -, -, -, -, -, hkind⟩ := parent_eq_ok htarget
  exact ⟨source, target, hsource, htarget, hmounts.1, hmounts.2, (not_not.mp hfs).symm, hkind, h⟩

theorem rename_edit {old new : Path} {answer : Except Errno Unit}
    (htree : ∀ id, Tree (vfs.fileSystem id)) (h : vfs.rename old new = some (answer, vfs')) :
    CallEdit vfs vfs' (.rename old new) := by
  cases answer with
  | error e => exact .of_eq htree (rename_error h)
  | ok u =>
    obtain ⟨source, target, hsource, htarget, hfrom, hto, hfs, hkind, hcall⟩ := rename_ok h
    by_cases hsame : At source.directory source.name target.directory target.name
    · obtain ⟨hdirectory, hname⟩ := hsame
      rw [hdirectory, hname] at hcall
      exact .of_eq htree (renameIn_same hcall)
    · refine ⟨_, _, _, renameIn_edit htree hfs hkind hcall, fun d n hat => .inr ?_,
        fun d n hat => ?_, fun _ d n hat => ?_⟩
      · exact ⟨new, target, htarget, hto, hat⟩
      · exact ⟨old, source, hsource, hfrom, hat⟩
      · exact ⟨old, new, source, target, vfs', rfl, hsource, htarget, h, hfrom, hsame, hat⟩

/-- What any call does. -/
theorem perform_edit {answer : Except Errno Unit} (htree : ∀ id, Tree (vfs.fileSystem id))
    (h : vfs.perform call = some (answer, vfs')) : CallEdit vfs vfs' call := by
  cases call with
  | «open» path flags =>
    obtain ⟨-, rfl⟩ := Prod.mk.inj (Option.some.inj h)
    exact open_edit htree rfl
  | mkdir path => exact mkdir_edit htree (Option.some.inj h)
  | unlink path => exact unlink_edit htree (Option.some.inj h)
  | rmdir path => exact rmdir_edit htree (Option.some.inj h)
  | rename old new => exact rename_edit htree h
  | write fd buf room =>
    obtain ⟨-, rfl⟩ := Prod.mk.inj (Option.some.inj h)
    exact .of_nowhere (write_edit htree rfl)
  | truncate inode size room => exact .of_nowhere (truncate_edit htree (Option.some.inj h))
  | ftruncate fd size room =>
    have hcall := Option.some.inj h
    unfold ftruncate at hcall
    split at hcall
    · exact .of_eq htree (Prod.mk.inj hcall).2.symm
    · split at hcall
      · exact .of_eq htree (Prod.mk.inj hcall).2.symm
      · split at hcall
        · exact .of_eq htree (Prod.mk.inj hcall).2.symm
        · exact .of_eq htree (Prod.mk.inj hcall).2.symm
        · exact .of_nowhere (truncate_edit htree hcall)

end Vfs

end SaeOS.Fs
