import SaeOS.Fs.RamFs
import SaeOS.Lib.Forest

/-!
# The tree of a ramfs

A file system is read through what its directories list (`entry`), which inodes are directories and
which are dead, and the parent links that can be followed. For each write to the store this module
says how these change, and from that how each section changes them.

`TreeOk` is what every section keeps: the inodes a directory lists exist, an inode is listed once,
a listed directory's parent link names the directory that lists it, and the links form a forest.
-/

namespace SaeOS.Fs

namespace RamFs

variable {fs : RamFs} {ino i j d p : ℕ} {name n : Name}

/-- The inode that directory `d` lists under a name. -/
def entry (fs : RamFs) (d : ℕ) (name : Name) : Option ℕ :=
  (fs.entries d)[name]?

/-- The inode is still referred to. -/
def present (fs : RamFs) (ino : ℕ) : Prop :=
  (fs.node ino).isSome = true

/-- The parent link of a directory, whether or not it can be upgraded. -/
def parentLink (fs : RamFs) (ino : ℕ) : Option ℕ :=
  (fs.dir ino).bind (·.parent)

/-! ## Writing a directory -/

theorem dir_setNode (node : Option Node) :
    (fs.setNode ino node).dir = Function.update fs.dir ino (node.bind Node.asDir) := by
  funext j
  by_cases h : j = ino
  · subst h
    simp [dir, setNode]
  · simp [dir, setNode, h]

theorem dir_setDir (f : RamDir → RamDir) :
    (fs.setDir ino f).dir = Function.update fs.dir ino ((fs.dir ino).map f) := by
  unfold setDir
  cases h : fs.dir ino with
  | none =>
    funext j
    by_cases hj : j = ino
    · simp [hj, h]
    · simp [hj]
  | some d => simp [dir_setNode, Node.asDir]

theorem present_of_dir {c : RamDir} (h : fs.dir ino = some c) : fs.present ino := by
  obtain ⟨node, hnode, -⟩ := Option.bind_eq_some_iff.mp h
  simp [present, hnode]

theorem present_of_isDir (h : fs.isDir ino = true) : fs.present ino := by
  obtain ⟨c, hc⟩ := Option.isSome_iff_exists.mp h
  exact present_of_dir hc

theorem present_setDir (f : RamDir → RamDir) : (fs.setDir ino f).present j ↔ fs.present j := by
  unfold setDir
  cases h : fs.dir ino with
  | none => rfl
  | some d =>
    by_cases hj : j = ino
    · subst hj
      exact iff_of_true (by simp [present, setNode]) (present_of_dir h)
    · simp [present, setNode, hj]

theorem nextIno_setDir (f : RamDir → RamDir) : (fs.setDir ino f).nextIno = fs.nextIno := by
  unfold setDir
  split <;> rfl

theorem isDir_setDir (f : RamDir → RamDir) : (fs.setDir ino f).isDir j = fs.isDir j := by
  unfold isDir
  rw [dir_setDir]
  by_cases hj : j = ino
  · simp [hj]
  · simp [hj]

theorem isDir_of_entry (h : fs.entry d n = some i) : fs.isDir d = true := by
  unfold entry entries at h
  unfold isDir
  split at h
  · rename_i heq
    simp [heq]
  · simp at h

theorem entry_of_lookup (h : fs.lookup d n = .ok i) : fs.entry d n = some i := by
  unfold lookup at h
  split at h
  · rename_i child hchild
    exact hchild.trans (congrArg some (Except.ok.inj h))
  · contradiction

/-! ## Changing entries, deadness and links -/

section MapEntries

variable (f : Entries → Entries)

theorem entries_mapEntries (h : fs.isDir ino = true) :
    (fs.mapEntries ino f).entries = Function.update fs.entries ino (f (fs.entries ino)) := by
  obtain ⟨c, hc⟩ := Option.isSome_iff_exists.mp h
  funext j
  simp only [entries, mapEntries, dir_setDir]
  by_cases hj : j = ino
  · simp [hj, hc]
  · simp [hj, entries]

@[simp]
theorem isDead_mapEntries : (fs.mapEntries ino f).isDead j = fs.isDead j := by
  simp only [isDead, mapEntries, dir_setDir]
  by_cases hj : j = ino
  · subst hj
    cases fs.dir j <;> simp
  · simp [hj]

@[simp]
theorem parentLink_mapEntries : (fs.mapEntries ino f).parentLink j = fs.parentLink j := by
  simp only [parentLink, mapEntries, dir_setDir]
  by_cases hj : j = ino
  · subst hj
    cases fs.dir j <;> simp
  · simp [hj]

@[simp]
theorem isDir_mapEntries : (fs.mapEntries ino f).isDir j = fs.isDir j :=
  isDir_setDir _

@[simp]
theorem present_mapEntries : (fs.mapEntries ino f).present j ↔ fs.present j :=
  present_setDir _

@[simp]
theorem nextIno_mapEntries : (fs.mapEntries ino f).nextIno = fs.nextIno :=
  nextIno_setDir _

end MapEntries

section MarkDead

@[simp]
theorem entries_markDead : (fs.markDead ino).entries j = fs.entries j := by
  simp only [entries, markDead, dir_setDir]
  by_cases hj : j = ino
  · subst hj
    cases fs.dir j <;> simp
  · simp [hj]

theorem isDead_markDead (h : fs.isDir ino = true) :
    (fs.markDead ino).isDead = Function.update fs.isDead ino true := by
  obtain ⟨c, hc⟩ := Option.isSome_iff_exists.mp h
  funext j
  simp only [isDead, markDead, dir_setDir]
  by_cases hj : j = ino
  · simp [hj, hc]
  · simp [hj, isDead]

@[simp]
theorem parentLink_markDead : (fs.markDead ino).parentLink j = fs.parentLink j := by
  simp only [parentLink, markDead, dir_setDir]
  by_cases hj : j = ino
  · subst hj
    cases fs.dir j <;> simp
  · simp [hj]

@[simp]
theorem isDir_markDead : (fs.markDead ino).isDir j = fs.isDir j :=
  isDir_setDir _

@[simp]
theorem present_markDead : (fs.markDead ino).present j ↔ fs.present j :=
  present_setDir _

@[simp]
theorem nextIno_markDead : (fs.markDead ino).nextIno = fs.nextIno :=
  nextIno_setDir _

end MarkDead

section SetParent

@[simp]
theorem entries_setParent : (fs.setParent ino p).entries j = fs.entries j := by
  simp only [entries, setParent, dir_setDir]
  by_cases hj : j = ino
  · subst hj
    cases fs.dir j <;> simp
  · simp [hj]

@[simp]
theorem isDead_setParent : (fs.setParent ino p).isDead j = fs.isDead j := by
  simp only [isDead, setParent, dir_setDir]
  by_cases hj : j = ino
  · subst hj
    cases fs.dir j <;> simp
  · simp [hj]

theorem parentLink_setParent : (fs.setParent ino p).parentLink j =
    if j = ino ∧ fs.isDir ino = true then some p else fs.parentLink j := by
  simp only [parentLink, setParent, dir_setDir, isDir]
  by_cases hj : j = ino
  · subst hj
    obtain h | ⟨c, h⟩ := (fs.dir j).eq_none_or_eq_some <;> simp [h]
  · simp [hj]

@[simp]
theorem isDir_setParent : (fs.setParent ino p).isDir j = fs.isDir j :=
  isDir_setDir _

@[simp]
theorem present_setParent : (fs.setParent ino p).present j ↔ fs.present j :=
  present_setDir _

@[simp]
theorem nextIno_setParent : (fs.setParent ino p).nextIno = fs.nextIno :=
  nextIno_setDir _

end SetParent

/-! ## Sections -/

theorem up_eq_some : fs.up i = some p ↔ fs.parentLink i = some p ∧ fs.present p := by
  unfold up parentLink present
  cases fs.dir i <;> simp [Option.filter_eq_some_iff]

/-- Links depend on the parent links and on what is present only. -/
theorem up_congr {fs' : RamFs} (hparent : ∀ j, fs'.parentLink j = fs.parentLink j)
    (hpresent : ∀ j, fs'.present j ↔ fs.present j) : fs'.up = fs.up := by
  funext j
  apply Option.ext
  intro p
  rw [up_eq_some, up_eq_some, hparent, hpresent]

theorem entry_mapEntries_of_ne {f : Entries → Entries} (h : fs.isDir ino = true) (hne : d ≠ ino) :
    (fs.mapEntries ino f).entry d n = fs.entry d n := by
  simp [entry, entries_mapEntries f h, hne]

theorem entry_insert {child : ℕ} (h : fs.isDir ino = true) :
    (fs.mapEntries ino (·.insert name child)).entry d n =
      if d = ino ∧ n = name then some child else fs.entry d n := by
  by_cases hd : d = ino
  · subst hd
    simp only [entry, entries_mapEntries _ h, Function.update_self, Entries.get_insert, true_and]
  · simp [entry_mapEntries_of_ne h hd, hd]

theorem entry_erase (h : fs.isDir ino = true) :
    (fs.mapEntries ino (·.erase name)).entry d n =
      if d = ino ∧ n = name then none else fs.entry d n := by
  by_cases hd : d = ino
  · subst hd
    simp only [entry, entries_mapEntries _ h, Function.update_self, Entries.get_erase, true_and]
  · simp [entry_mapEntries_of_ne h hd, hd]

@[simp]
theorem entry_markDead : (fs.markDead ino).entry d n = fs.entry d n := by
  simp [entry]

@[simp]
theorem entry_setParent : (fs.setParent ino p).entry d n = fs.entry d n := by
  simp [entry]

theorem up_mapEntries (f : Entries → Entries) : (fs.mapEntries ino f).up = fs.up :=
  up_congr (fun _ => parentLink_mapEntries f) fun _ => present_mapEntries f

theorem up_markDead : (fs.markDead ino).up = fs.up :=
  up_congr (fun _ => parentLink_markDead) fun _ => present_markDead

/-- `moveEntry` moves one entry. -/
theorem entry_moveEntry {r : Rename} {source : ℕ} (hself : fs.isDir r.self = true)
    (htarget : fs.isDir r.target = true) :
    (fs.moveEntry r source).entry d n =
      if d = r.self ∧ n = r.old then none
      else if d = r.target ∧ n = r.new then some source
      else fs.entry d n := by
  rw [moveEntry, entry_setParent, entry_erase (by simpa using hself), entry_insert htarget]

theorem parentLink_moveEntry {r : Rename} {source : ℕ} :
    (fs.moveEntry r source).parentLink j =
      if j = source ∧ fs.isDir source = true then some r.target else fs.parentLink j := by
  simp [moveEntry, parentLink_setParent]

@[simp]
theorem isDead_moveEntry {r : Rename} {source : ℕ} :
    (fs.moveEntry r source).isDead j = fs.isDead j := by
  simp [moveEntry]

@[simp]
theorem isDir_moveEntry {r : Rename} {source : ℕ} :
    (fs.moveEntry r source).isDir j = fs.isDir j := by
  simp [moveEntry]

@[simp]
theorem present_moveEntry {r : Rename} {source : ℕ} :
    (fs.moveEntry r source).present j ↔ fs.present j := by
  simp [moveEntry]

@[simp]
theorem nextIno_moveEntry {r : Rename} {source : ℕ} :
    (fs.moveEntry r source).nextIno = fs.nextIno := by
  simp [moveEntry]

/-! ## The tree invariant -/

/-- What the directories list is a forest with the root on top, and links agree with listings. -/
structure TreeOk (fs : RamFs) : Prop where
  root_dir : fs.isDir rootIno = true
  root_parent : fs.parentLink rootIno = none
  lt_next : ∀ i, fs.present i → i < fs.nextIno
  link_lt : ∀ i p, fs.parentLink i = some p → p < fs.nextIno
  listed : ∀ d n i, fs.entry d n = some i → i ≠ rootIno ∧ fs.present i
  parent : ∀ d n i, fs.entry d n = some i → fs.isDir i = true → fs.parentLink i = some d
  unique : ∀ d n d' n' i, fs.entry d n = some i → fs.entry d' n' = some i → d = d' ∧ n = n'
  grounded : Forest.Grounded fs.up

/-- A listed directory's link can be followed to the directory that lists it. -/
theorem TreeOk.up_of_entry (h : fs.TreeOk) (hentry : fs.entry d n = some i)
    (hdir : fs.isDir i = true) : fs.up i = some d :=
  up_eq_some.mpr ⟨h.parent d n i hentry hdir, present_of_isDir (isDir_of_entry hentry)⟩

/-- The empty file system. -/
theorem treeOk_withLimit (limit : ℕ) : (withLimit limit).TreeOk := by
  have hdir : ∀ j, (withLimit limit).dir j = if j = rootIno then some {} else none := by
    intro j
    by_cases hj : j = rootIno
    · simp [dir, withLimit, hj, Node.asDir]
    · simp [dir, withLimit, hj]
  have hentry : ∀ d n, (withLimit limit).entry d n = none := by
    intro d n
    by_cases hd : d = rootIno
    · simp [entry, entries, hdir, hd]
    · simp [entry, entries, hdir, hd]
  have hparent : ∀ j, (withLimit limit).parentLink j = none := by
    intro j
    by_cases hj : j = rootIno
    · simp [parentLink, hdir, hj]
    · simp [parentLink, hdir, hj]
  refine ⟨by simp [isDir, hdir], hparent _, fun i hi => ?_, fun i p hp => ?_, fun d n i h => ?_,
    fun d n i h => ?_, fun d n d' n' i h => ?_, ⟨fun i => ⟨i, fun j hj => ?_⟩⟩⟩
  · by_cases heq : i = rootIno
    · simp [heq, withLimit, rootIno]
    · simp [present, withLimit, heq] at hi
  · rw [hparent] at hp
    cases hp
  · rw [hentry] at h
    cases h
  · rw [hentry] at h
    cases h
  · rw [hentry] at h
    cases h
  · rw [up_eq_some, hparent] at hj
    cases hj.1

/-- Taking entries away keeps the tree. -/
theorem TreeOk.shrink {fs' : RamFs} (h : fs.TreeOk)
    (hentry : ∀ d n i, fs'.entry d n = some i → fs.entry d n = some i)
    (hnext : fs'.nextIno = fs.nextIno) (hpresent : ∀ j, fs'.present j ↔ fs.present j)
    (hdir : ∀ j, fs'.isDir j = fs.isDir j) (hparent : ∀ j, fs'.parentLink j = fs.parentLink j) :
    fs'.TreeOk where
  root_dir := (hdir _).trans h.root_dir
  root_parent := (hparent _).trans h.root_parent
  lt_next i hi := by
    rw [hnext]
    exact h.lt_next i ((hpresent i).mp hi)
  link_lt i p hp := by
    rw [hnext]
    exact h.link_lt i p ((hparent i).symm.trans hp)
  listed d n i he := by
    obtain ⟨hroot, hp⟩ := h.listed d n i (hentry d n i he)
    exact ⟨hroot, (hpresent i).mpr hp⟩
  parent d n i he hi := by
    rw [hparent]
    exact h.parent d n i (hentry d n i he) ((hdir i).symm.trans hi)
  unique d n d' n' i he he' := h.unique d n d' n' i (hentry d n i he) (hentry d' n' i he')
  grounded := by
    refine h.grounded.mono fun y z hz => ?_
    rw [up_eq_some, hparent, hpresent] at hz
    exact up_eq_some.mpr hz

theorem TreeOk.erase (h : fs.TreeOk) (hino : fs.isDir ino = true) :
    (fs.mapEntries ino (·.erase name)).TreeOk := by
  refine h.shrink (fun d n i he => ?_) (by simp) (fun j => by simp) (fun j => by simp)
    (fun j => by simp)
  rw [entry_erase hino] at he
  split_ifs at he
  exact he

theorem TreeOk.markDead (h : fs.TreeOk) (ino : ℕ) : (fs.markDead ino).TreeOk :=
  h.shrink (fun d n i he => by simpa using he) (by simp) (fun j => by simp) (fun j => by simp)
    (fun j => by simp)

/-! ### Creating -/

/-- What a successful `create` does: a fresh inode appears under the name. -/
structure Created (fs fs' : RamFs) (ino : ℕ) (name : Name) : Prop where
  alive : fs.isDead ino = false
  free : fs.entry ino name = none
  next : fs'.nextIno = fs.nextIno + 1
  entry : ∀ d n, fs'.entry d n = if d = ino ∧ n = name then some fs.nextIno else fs.entry d n
  present : ∀ j, fs'.present j ↔ j = fs.nextIno ∨ fs.present j
  isDir : ∀ j, j ≠ fs.nextIno → fs'.isDir j = fs.isDir j
  isDead : ∀ j, fs'.isDead j = fs.isDead j
  parentLink : ∀ j, j ≠ fs.nextIno → fs'.parentLink j = fs.parentLink j
  parent_new : fs'.isDir fs.nextIno = true → fs'.parentLink fs.nextIno = some ino

theorem TreeOk.fresh (h : fs.TreeOk) : fs.node fs.nextIno = none := by
  by_contra hne
  have hpresent : fs.present fs.nextIno := Option.isSome_iff_ne_none.mpr hne
  exact absurd (h.lt_next _ hpresent) (lt_irrefl _)

theorem created_of_fresh {kind : InodeKind} {child : ℕ} {fs' : RamFs}
    (hnone : fs.node fs.nextIno = none) (hino : fs.isDir ino = true)
    (hcreate : fs.create ino name kind = .ok (child, fs')) :
    child = fs.nextIno ∧ Created fs fs' ino name := by
  unfold create at hcreate
  split_ifs at hcreate with hdead hexists
  split at hcreate
  next => cases hcreate
  next node hnode =>
    cases hcreate
    set fs₁ : RamFs := { fs with nextIno := fs.nextIno + 1 }.setNode fs.nextIno (some node) with hfs₁
    have hfresh : fs.dir fs.nextIno = none := by simp [dir, hnone]
    have hne : ino ≠ fs.nextIno := fun heq => by
      rw [isDir, heq, hfresh] at hino
      cases hino
    have hdir : fs₁.dir = Function.update fs.dir fs.nextIno node.asDir :=
      (dir_setNode (some node)).trans rfl
    have hdirOf : ∀ j, j ≠ fs.nextIno → fs₁.dir j = fs.dir j := fun j hj => by
      rw [hdir, Function.update_of_ne hj]
    have hnew : ∀ c, node.asDir = some c → c = { parent := some ino } := by
      intro c hc
      cases kind with
      | file =>
        cases hnode
        cases hc
      | directory =>
        cases hnode
        cases hc
        rfl
      | charDevice => cases hnode
    have hino₁ : fs₁.isDir ino = true := by rwa [isDir, hdirOf ino hne]
    have hentries₁ : ∀ j, fs₁.entries j = fs.entries j := by
      intro j
      by_cases hj : j = fs.nextIno
      · subst hj
        rw [entries, entries, hfresh, hdir, Function.update_self]
        cases hc : node.asDir with
        | none => rfl
        | some c => rw [hnew c hc]
      · rw [entries, hdirOf j hj, entries]
    refine ⟨rfl, ⟨by simpa using hdead, by simpa [RamFs.entry] using hexists,
      by simp [hfs₁, setNode], fun d n => ?_, fun j => ?_, fun j hj => ?_, fun j => ?_,
      fun j hj => ?_, fun hnewDir => ?_⟩⟩
    · rw [entry_insert hino₁, RamFs.entry, hentries₁, RamFs.entry]
    · rw [present_mapEntries]
      by_cases hj : j = fs.nextIno
      · simp [hj, RamFs.present, hfs₁, setNode]
      · simp [hj, RamFs.present, hfs₁, setNode]
    · rw [isDir_mapEntries, RamFs.isDir, hdirOf j hj, RamFs.isDir]
    · rw [isDead_mapEntries]
      by_cases hj : j = fs.nextIno
      · subst hj
        rw [RamFs.isDead, RamFs.isDead, hfresh, hdir, Function.update_self]
        cases hc : node.asDir with
        | none => rfl
        | some c => rw [hnew c hc]
      · rw [RamFs.isDead, hdirOf j hj, RamFs.isDead]
    · rw [parentLink_mapEntries, RamFs.parentLink, hdirOf j hj, RamFs.parentLink]
    · rw [isDir_mapEntries, RamFs.isDir, hdir, Function.update_self] at hnewDir
      obtain ⟨c, hc⟩ := Option.isSome_iff_exists.mp hnewDir
      rw [parentLink_mapEntries, RamFs.parentLink, hdir, Function.update_self, hc, hnew c hc]
      rfl

theorem TreeOk.created {kind : InodeKind} {child : ℕ} {fs' : RamFs} (h : fs.TreeOk)
    (hino : fs.isDir ino = true) (hcreate : fs.create ino name kind = .ok (child, fs')) :
    child = fs.nextIno ∧ Created fs fs' ino name :=
  created_of_fresh h.fresh hino hcreate

/-- Creating keeps the tree: the new inode is listed once and nothing is below it. -/
theorem TreeOk.of_created {fs' : RamFs} (h : fs.TreeOk) (hino : fs.isDir ino = true)
    (hc : Created fs fs' ino name) : fs'.TreeOk := by
  have hfresh : ¬fs.present fs.nextIno := fun hp => absurd (h.lt_next _ hp) (lt_irrefl _)
  have hne : ino ≠ fs.nextIno := fun heq => hfresh (heq ▸ present_of_isDir hino)
  have hrootNe : rootIno ≠ fs.nextIno := fun heq =>
    hfresh (heq ▸ present_of_isDir h.root_dir)
  have hold : ∀ d n i, fs'.entry d n = some i →
      (d = ino ∧ n = name ∧ i = fs.nextIno) ∨ (i ≠ fs.nextIno ∧ fs.entry d n = some i) := by
    intro d n i he
    rw [hc.entry] at he
    split_ifs at he with hdn
    · exact Or.inl ⟨hdn.1, hdn.2, (Option.some.inj he).symm⟩
    · exact Or.inr ⟨fun heq => hfresh (heq ▸ (h.listed d n i he).2), he⟩
  have hup : ∀ y z, y ≠ fs.nextIno → fs'.up y = some z → fs.up y = some z := by
    intro y z hy hz
    rw [up_eq_some, hc.parentLink y hy, hc.present] at hz
    obtain ⟨hlink, rfl | hp⟩ := hz
    · exact absurd (h.link_lt y _ hlink) (lt_irrefl _)
    · exact up_eq_some.mpr ⟨hlink, hp⟩
  have hleaf : ∀ y, fs.up y ≠ some fs.nextIno := fun y hy => hfresh (up_eq_some.mp hy).2
  refine ⟨(hc.isDir _ hrootNe).trans h.root_dir, (hc.parentLink _ hrootNe).trans h.root_parent,
    fun i hi => ?_, fun i p hp => ?_, fun d n i he => ?_, fun d n i he hi => ?_,
    fun d n d' n' i he he' => ?_, ?_⟩
  · rw [hc.next]
    rcases (hc.present i).mp hi with rfl | hp
    · exact Nat.lt_succ_self _
    · exact Nat.lt_succ_of_lt (h.lt_next i hp)
  · rw [hc.next]
    by_cases heq : i = fs.nextIno
    · subst heq
      by_cases hi : fs'.isDir fs.nextIno = true
      · rw [hc.parent_new hi] at hp
        cases hp
        exact Nat.lt_succ_of_lt (h.lt_next _ (present_of_isDir hino))
      · rw [RamFs.isDir, Option.not_isSome_iff_eq_none] at hi
        rw [RamFs.parentLink, hi] at hp
        cases hp
    · rw [hc.parentLink i heq] at hp
      exact Nat.lt_succ_of_lt (h.link_lt i p hp)
  · rcases hold d n i he with ⟨-, -, rfl⟩ | ⟨-, he⟩
    · exact ⟨hrootNe.symm, (hc.present _).mpr (Or.inl rfl)⟩
    · obtain ⟨hroot, hp⟩ := h.listed d n i he
      exact ⟨hroot, (hc.present i).mpr (Or.inr hp)⟩
  · rcases hold d n i he with ⟨rfl, -, rfl⟩ | ⟨hne', he⟩
    · exact hc.parent_new hi
    · rw [hc.parentLink i hne']
      exact h.parent d n i he ((hc.isDir i hne').symm.trans hi)
  · rcases hold d n i he with ⟨rfl, rfl, rfl⟩ | ⟨hne', he⟩
    · rcases hold d' n' _ he' with ⟨rfl, rfl, -⟩ | ⟨hne', -⟩
      · exact ⟨rfl, rfl⟩
      · exact absurd rfl hne'
    · rcases hold d' n' i he' with ⟨-, -, heq⟩ | ⟨-, he'⟩
      · exact absurd heq hne'
      · exact h.unique d n d' n' i he he'
  · refine h.grounded.hang (p := ino) (x := fs.nextIno) (fun z hz => ?_) hup fun hwithin =>
      hne (hwithin.eq_of_no_child hleaf)
    obtain ⟨hlink, -⟩ := up_eq_some.mp hz
    by_cases hi : fs'.isDir fs.nextIno = true
    · exact (Option.some.inj ((hc.parent_new hi).symm.trans hlink)).symm
    · rw [RamFs.isDir, Option.not_isSome_iff_eq_none] at hi
      rw [RamFs.parentLink, hi] at hlink
      cases hlink

/-! ### Moving and dropping -/

/-- Moving an entry keeps the tree, if a directory is not moved into or below itself. -/
theorem TreeOk.moveEntry {r : Rename} {source : ℕ} (h : fs.TreeOk)
    (hentry : fs.entry r.self r.old = some source) (htarget : fs.isDir r.target = true)
    (hwithin : fs.isDir source = true → ¬Forest.Within fs.up r.target source) :
    (fs.moveEntry r source).TreeOk := by
  have hself := isDir_of_entry hentry
  have hnew : ∀ d n i, (fs.moveEntry r source).entry d n = some i →
      (d = r.target ∧ n = r.new ∧ i = source) ∨
        (i ≠ source ∧ fs.entry d n = some i) := by
    intro d n i he
    rw [entry_moveEntry hself htarget] at he
    split_ifs at he with hold hput
    · exact Or.inl ⟨hput.1, hput.2, (Option.some.inj he).symm⟩
    · refine Or.inr ⟨fun heq => hold ?_, he⟩
      exact h.unique d n r.self r.old i he (heq ▸ hentry)
  refine ⟨by simpa using h.root_dir, ?_, fun i hi => ?_, fun i p hp => ?_, fun d n i he => ?_,
    fun d n i he hi => ?_, fun d n d' n' i he he' => ?_, ?_⟩
  · rw [parentLink_moveEntry, if_neg fun hroot => (h.listed _ _ _ hentry).1 hroot.1.symm]
    exact h.root_parent
  · rw [nextIno_moveEntry]
    exact h.lt_next i (present_moveEntry.mp hi)
  · rw [nextIno_moveEntry]
    rw [parentLink_moveEntry] at hp
    split_ifs at hp
    · cases hp
      exact h.lt_next _ (present_of_isDir htarget)
    · exact h.link_lt i p hp
  · rw [present_moveEntry]
    rcases hnew d n i he with ⟨-, -, rfl⟩ | ⟨-, he⟩
    · exact h.listed _ _ _ hentry
    · exact h.listed d n i he
  · rw [isDir_moveEntry] at hi
    rw [parentLink_moveEntry]
    rcases hnew d n i he with ⟨rfl, -, rfl⟩ | ⟨hne, he⟩
    · exact if_pos ⟨rfl, hi⟩
    · rw [if_neg fun heq => hne heq.1]
      exact h.parent d n i he hi
  · rcases hnew d n i he with ⟨rfl, rfl, rfl⟩ | ⟨hne, he⟩
    · rcases hnew d' n' _ he' with ⟨rfl, rfl, -⟩ | ⟨hne, -⟩
      · exact ⟨rfl, rfl⟩
      · exact absurd rfl hne
    · rcases hnew d' n' i he' with ⟨-, -, heq⟩ | ⟨-, he'⟩
      · exact absurd heq hne
      · exact h.unique d n d' n' i he he'
  · have hup : ∀ y z, y ≠ source → (fs.moveEntry r source).up y = some z → fs.up y = some z := by
      intro y z hy hz
      rw [up_eq_some, parentLink_moveEntry, if_neg fun heq => hy heq.1, present_moveEntry] at hz
      exact up_eq_some.mpr hz
    by_cases hdir : fs.isDir source = true
    · refine h.grounded.hang (p := r.target) (x := source) (fun z hz => ?_) hup (hwithin hdir)
      obtain ⟨hlink, -⟩ := up_eq_some.mp hz
      rw [parentLink_moveEntry, if_pos ⟨rfl, hdir⟩] at hlink
      exact (Option.some.inj hlink).symm
    · refine h.grounded.mono fun y z hz => ?_
      rw [up_eq_some, parentLink_moveEntry, if_neg fun heq => hdir heq.2, present_moveEntry] at hz
      exact up_eq_some.mpr hz

theorem drop_dir : (fs.drop ino).dir = Function.update fs.dir ino none := by
  have hset : (fs.drop ino).dir = (fs.setNode ino none).dir := by
    unfold drop
    split <;> rfl
  rw [hset, dir_setNode]
  rfl

theorem present_drop : (fs.drop ino).present j ↔ fs.present j ∧ j ≠ ino := by
  have hset : (fs.drop ino).node = (fs.setNode ino none).node := by
    unfold drop
    split <;> rfl
  rw [present, hset]
  by_cases hj : j = ino
  · simp [setNode, hj]
  · simp [setNode, hj, present]

theorem nextIno_drop : (fs.drop ino).nextIno = fs.nextIno := by
  unfold drop
  split <;> rfl

theorem isDir_drop : (fs.drop ino).isDir j = true ↔ fs.isDir j = true ∧ j ≠ ino := by
  by_cases hj : j = ino
  · simp [isDir, drop_dir, hj]
  · simp [isDir, drop_dir, hj]

theorem parentLink_drop : (fs.drop ino).parentLink j = some p ↔
    fs.parentLink j = some p ∧ j ≠ ino := by
  by_cases hj : j = ino
  · simp [parentLink, drop_dir, hj]
  · simp [parentLink, drop_dir, hj]

theorem entry_drop : (fs.drop ino).entry d n = some i ↔ fs.entry d n = some i ∧ d ≠ ino := by
  by_cases hd : d = ino
  · simp [entry, entries, drop_dir, hd]
  · simp [entry, entries, drop_dir, hd]

/-- Dropping an inode that no directory lists keeps the tree. -/
theorem TreeOk.drop (h : fs.TreeOk) (hroot : ino ≠ rootIno)
    (hunlisted : ∀ d n, fs.entry d n ≠ some ino) : (fs.drop ino).TreeOk where
  root_dir := isDir_drop.mpr ⟨h.root_dir, hroot.symm⟩
  root_parent := by
    cases hp : (fs.drop ino).parentLink rootIno with
    | none => rfl
    | some p =>
      rw [parentLink_drop, h.root_parent] at hp
      cases hp.1
  lt_next i hi := by
    rw [nextIno_drop]
    exact h.lt_next i (present_drop.mp hi).1
  link_lt i p hp := by
    rw [nextIno_drop]
    exact h.link_lt i p (parentLink_drop.mp hp).1
  listed d n i he := by
    obtain ⟨he, -⟩ := entry_drop.mp he
    obtain ⟨hi, hp⟩ := h.listed d n i he
    exact ⟨hi, present_drop.mpr ⟨hp, fun heq => hunlisted d n (heq ▸ he)⟩⟩
  parent d n i he hi := by
    obtain ⟨hdir, hne⟩ := isDir_drop.mp hi
    exact parentLink_drop.mpr ⟨h.parent d n i (entry_drop.mp he).1 hdir, hne⟩
  unique d n d' n' i he he' := h.unique d n d' n' i (entry_drop.mp he).1 (entry_drop.mp he').1
  grounded := by
    refine h.grounded.mono fun y z hz => ?_
    rw [up_eq_some, parentLink_drop, present_drop] at hz
    exact up_eq_some.mpr ⟨hz.1.1, hz.2.1⟩

end RamFs

end SaeOS.Fs
