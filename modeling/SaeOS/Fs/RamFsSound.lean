import SaeOS.Fs.RamFsInvariant

/-!
# The tree under concurrent operations

A directory that was removed is empty, every inode that was created and not removed is at the end of
exactly one path from the root, parent links name the directory that lists, and there is no cycle.

`rename` checks that its target directory is not dead before it takes the locks and does not look
again, so a `rmdir` in between makes it move its source into a removed directory. In every run in
which a `rename` that moves its source finds the target directory alive at that moment, the tree is
as described.
-/

namespace SaeOS.Fs

open RamFs (Rename)
open Forest (Within)

namespace RamFs

/-- The inode at the end of a path from the root. -/
def resolve (fs : RamFs) (path : List Name) : Option ℕ :=
  path.foldlM fs.entry rootIno

/-- Directory `d` lists inode `i`. -/
def Lists (fs : RamFs) (d i : ℕ) : Prop :=
  ∃ n, fs.entry d n = some i

theorem resolve_append (fs : RamFs) (path : List Name) (n : Name) :
    fs.resolve (path ++ [n]) = (fs.resolve path).bind fun d => fs.entry d n := by
  simp [resolve]

/-- In a tree no inode is at the end of two paths. -/
theorem TreeOk.path_unique {fs : RamFs} (h : fs.TreeOk) {path path' : List Name} {i : ℕ}
    (hpath : fs.resolve path = some i) (hpath' : fs.resolve path' = some i) : path = path' := by
  have hroot : ∀ (q : List Name) (n : Name), fs.resolve (q ++ [n]) ≠ some rootIno := by
    intro q n hq
    rw [resolve_append] at hq
    obtain ⟨d, -, hentry⟩ := Option.bind_eq_some_iff.mp hq
    exact (h.listed d n _ hentry).1 rfl
  induction path using List.reverseRecOn generalizing path' i with
  | nil =>
    cases hpath
    rcases List.eq_nil_or_concat path' with rfl | ⟨q, m, rfl⟩
    · rfl
    · rw [List.concat_eq_append] at hpath'
      exact absurd hpath' (hroot q m)
  | append_singleton p n ih =>
    rcases List.eq_nil_or_concat path' with rfl | ⟨q, m, rfl⟩
    · cases hpath'
      exact absurd hpath (hroot p n)
    · rw [List.concat_eq_append] at hpath' ⊢
      rw [resolve_append] at hpath hpath'
      obtain ⟨d, hp, hentry⟩ := Option.bind_eq_some_iff.mp hpath
      obtain ⟨d', hq, hentry'⟩ := Option.bind_eq_some_iff.mp hpath'
      obtain ⟨rfl, rfl⟩ := h.unique d n d' m i hentry hentry'
      rw [ih hp hq]

/-- A chain of listings down to a directory is a chain of parent links. -/
theorem TreeOk.links_of_lists {fs : RamFs} (h : fs.TreeOk) {d i : ℕ}
    (hlists : Relation.TransGen fs.Lists d i) (hdir : fs.isDir i = true) :
    Relation.TransGen (fun a b => fs.up b = some a) d i := by
  induction hlists with
  | single hlist =>
    obtain ⟨n, hn⟩ := hlist
    exact .single (h.up_of_entry hn hdir)
  | tail _ hlist ih =>
    obtain ⟨n, hn⟩ := hlist
    exact .tail (ih (isDir_of_entry hn)) (h.up_of_entry hn hdir)

theorem TreeOk.acyclic {fs : RamFs} (h : fs.TreeOk) (i : ℕ) :
    ¬Relation.TransGen fs.Lists i i := by
  intro hcycle
  obtain ⟨j, ⟨n, hn⟩, -⟩ := Relation.TransGen.head'_iff.mp hcycle
  have hlinks := h.links_of_lists hcycle (isDir_of_entry hn)
  exact (WellFounded.transGen h.grounded).irrefl.irrefl i hlinks

end RamFs

namespace Threads

/-- The tree of a file system and the record of removed inodes agree. -/
structure Intact (fs : RamFs) (removed : ℕ → Bool) : Prop where
  dead_empty : ∀ d n, fs.isDead d = true → fs.entry d n = none
  dead_eq : ∀ d, fs.isDir d = true → fs.isDead d = removed d
  listed : ∀ d n i, fs.entry d n = some i → removed i = false
  attached : ∀ i, i ≠ RamFs.rootIno → fs.present i → removed i = false →
    ∃ d n, fs.entry d n = some i
  created : ∀ i, RamFs.rootIno ≤ i → i < fs.nextIno → removed i = false → fs.present i
  root : removed RamFs.rootIno = false
  lt_next : ∀ i, removed i = true → i < fs.nextIno

namespace Intact

variable {fs fs' : RamFs} {removed removed' : ℕ → Bool}

theorem congr (h : Intact fs removed) (hentry : ∀ d n, fs'.entry d n = fs.entry d n)
    (hdead : ∀ d, fs'.isDead d = fs.isDead d) (hdir : ∀ d, fs'.isDir d = fs.isDir d)
    (hpresent : ∀ d, fs'.present d ↔ fs.present d) (hnext : fs'.nextIno = fs.nextIno) :
    Intact fs' removed where
  dead_empty d n hd := (hentry d n).trans (h.dead_empty d n ((hdead d).symm.trans hd))
  dead_eq d hd := (hdead d).trans (h.dead_eq d ((hdir d).symm.trans hd))
  listed d n i hi := h.listed d n i ((hentry d n).symm.trans hi)
  attached i hne hp hi := by
    obtain ⟨d, n, hn⟩ := h.attached i hne ((hpresent i).mp hp) hi
    exact ⟨d, n, (hentry d n).trans hn⟩
  created i hle hlt hi := (hpresent i).mpr (h.created i hle (hnext ▸ hlt) hi)
  root := h.root
  lt_next i hi := by
    rw [hnext]
    exact h.lt_next i hi

theorem initial (limit : ℕ) : Intact (RamFs.withLimit limit) fun _ => false := by
  have htree := RamFs.treeOk_withLimit limit
  have hdir : ∀ d, d ≠ RamFs.rootIno → (RamFs.withLimit limit).dir d = none := fun d hd => by
    simp [RamFs.dir, RamFs.withLimit, hd]
  have hroot : (RamFs.withLimit limit).dir RamFs.rootIno = some {} := by
    simp [RamFs.dir, RamFs.withLimit, Node.asDir]
  have hdead : ∀ d, (RamFs.withLimit limit).isDead d = false := by
    intro d
    by_cases hd : d = RamFs.rootIno
    · simp [RamFs.isDead, hd, hroot]
    · simp [RamFs.isDead, hdir d hd]
  refine ⟨fun d n hd => ?_, fun d _ => hdead d, fun _ _ _ _ => rfl, fun i hne hp _ => ?_,
    fun i hle hlt _ => ?_, rfl, fun i hi => by cases hi⟩
  · rw [hdead] at hd
    cases hd
  · simp [RamFs.present, RamFs.withLimit, hne] at hp
  · have heq : i = RamFs.rootIno := by
      simp only [RamFs.withLimit, RamFs.rootIno] at hle hlt ⊢
      omega
    rw [heq]
    exact RamFs.present_of_isDir htree.root_dir

/-- A fresh inode joins the tree. -/
theorem create {dir : ℕ} {name : Name} (h : Intact fs removed) (htree : fs.TreeOk)
    (hc : RamFs.Created fs fs' dir name) : Intact fs' removed := by
  have hfresh : fs.dir fs.nextIno = none := by simp [RamFs.dir, htree.fresh]
  have hnew : removed fs.nextIno = false := by
    cases hr : removed fs.nextIno with
    | false => rfl
    | true => exact absurd (h.lt_next _ hr) (lt_irrefl _)
  have hread : ∀ d n i, fs'.entry d n = some i →
      (d = dir ∧ i = fs.nextIno) ∨ fs.entry d n = some i := by
    intro d n i hi
    rw [hc.entry] at hi
    split_ifs at hi with heq
    · exact Or.inl ⟨heq.1, (Option.some.inj hi).symm⟩
    · exact Or.inr hi
  refine ⟨fun d n hd => ?_, fun d hd => ?_, fun d n i hi => ?_, fun i hne hp hi => ?_,
    fun i hle hlt hi => ?_, h.root, fun i hi => ?_⟩
  · rw [hc.isDead] at hd
    rw [hc.entry, if_neg fun heq => ?_]
    · exact h.dead_empty d n hd
    · rw [heq.1, hc.alive] at hd
      cases hd
  · rw [hc.isDead]
    by_cases heq : d = fs.nextIno
    · rw [heq, hnew, RamFs.isDead, hfresh]
    · exact h.dead_eq d ((hc.isDir d heq).symm.trans hd)
  · rcases hread d n i hi with ⟨-, rfl⟩ | hi
    · exact hnew
    · exact h.listed d n i hi
  · rcases (hc.present i).mp hp with rfl | hp
    · exact ⟨dir, name, by rw [hc.entry, if_pos ⟨rfl, rfl⟩]⟩
    · obtain ⟨d, n, hn⟩ := h.attached i hne hp hi
      refine ⟨d, n, ?_⟩
      rw [hc.entry, if_neg fun heq => ?_]
      · exact hn
      · rw [heq.1, heq.2, hc.free] at hn
        cases hn
  · rw [hc.present]
    rw [hc.next] at hlt
    rcases Nat.lt_succ_iff_lt_or_eq.mp hlt with hlt | heq
    · exact Or.inr (h.created i hle hlt hi)
    · exact Or.inl heq
  · rw [hc.next]
    exact Nat.lt_succ_of_lt (h.lt_next i hi)

theorem markDead_of_file {ino : ℕ} (hfile : fs.isDir ino = false) : fs.markDead ino = fs := by
  have hnone : fs.dir ino = none := Option.not_isSome_iff_eq_none.mp (by simpa [RamFs.isDir] using hfile)
  simp [RamFs.markDead, RamFs.setDir, hnone]

/-- A file lists nothing. -/
theorem entry_of_file {ino : ℕ} (hfile : fs.isDir ino = false) (n : Name) :
    fs.entry ino n = none := by
  by_contra hne
  obtain ⟨i, hi⟩ := Option.ne_none_iff_exists'.mp hne
  rw [RamFs.isDir_of_entry hi] at hfile
  cases hfile

/-- An inode without entries leaves the tree; a directory is marked dead. -/
theorem remove {dir child : ℕ} {name : Name} (h : Intact fs removed) (htree : fs.TreeOk)
    (hentry : fs.entry dir name = some child) (hempty : ∀ n, fs.entry child n = none) :
    Intact ((fs.markDead child).mapEntries dir (·.erase name))
      (Function.update removed child true) := by
  have hdir : (fs.markDead child).isDir dir = true := by
    rw [RamFs.isDir_markDead]
    exact RamFs.isDir_of_entry hentry
  have hread : ∀ d n, ((fs.markDead child).mapEntries dir (·.erase name)).entry d n =
      if d = dir ∧ n = name then none else fs.entry d n := by
    intro d n
    rw [RamFs.entry_erase hdir, RamFs.entry_markDead]
  have hroot := (htree.listed dir name child hentry).1
  have hdead : ∀ d, fs.isDir d = true → ((fs.markDead child).mapEntries dir (·.erase name)).isDead d =
      Function.update fs.isDead child true d := by
    intro d hd
    rw [RamFs.isDead_mapEntries]
    by_cases hchild : fs.isDir child = true
    · rw [RamFs.isDead_markDead hchild]
    · have hne : d ≠ child := fun heq => hchild (heq ▸ hd)
      rw [markDead_of_file (by simpa using hchild), Function.update_of_ne hne]
  refine ⟨fun d n hd => ?_, fun d hd => ?_, fun d n i hi => ?_, fun i hne hp hi => ?_,
    fun i hle hlt hi => ?_, ?_, fun i hi => ?_⟩
  · rw [hread]
    split_ifs
    · rfl
    · by_cases hd' : fs.isDir d = true
      · rw [hdead d hd'] at hd
        by_cases heq : d = child
        · rw [heq]
          exact hempty n
        · rw [Function.update_of_ne heq] at hd
          exact h.dead_empty d n hd
      · exact entry_of_file (by simpa using hd') n
  · have hd' : fs.isDir d = true := by simpa using hd
    rw [hdead d hd']
    by_cases heq : d = child
    · rw [heq, Function.update_self, Function.update_self]
    · rw [Function.update_of_ne heq, Function.update_of_ne heq]
      exact h.dead_eq d hd'
  · rw [hread] at hi
    split_ifs at hi with hold
    have hne : i ≠ child := fun heq => hold (htree.unique d n dir name i hi (heq ▸ hentry))
    rw [Function.update_of_ne hne]
    exact h.listed d n i hi
  · have hne' : i ≠ child := fun heq => by
      rw [heq, Function.update_self] at hi
      cases hi
    rw [Function.update_of_ne hne'] at hi
    obtain ⟨d, n, hn⟩ := h.attached i hne (by simpa using hp) hi
    refine ⟨d, n, ?_⟩
    rw [hread, if_neg fun heq => ?_]
    · exact hn
    · rw [heq.1, heq.2, hentry] at hn
      exact hne' (Option.some.inj hn).symm
  · have hne : i ≠ child := fun heq => by
      rw [heq, Function.update_self] at hi
      cases hi
    rw [Function.update_of_ne hne] at hi
    simpa using h.created i hle (by simpa using hlt) hi
  · rw [Function.update_of_ne hroot.symm]
    exact h.root
  · by_cases heq : i = child
    · rw [heq]
      simpa using htree.lt_next child (htree.listed dir name child hentry).2
    · rw [Function.update_of_ne heq] at hi
      simpa using h.lt_next i hi

/-- An entry moves to a free place in a directory that is not dead. -/
theorem move {r : Rename} {source : ℕ} (h : Intact fs removed)
    (hentry : fs.entry r.self r.old = some source) (htarget : fs.isDir r.target = true)
    (hfree : fs.entry r.target r.new = none) (halive : fs.isDead r.target = false) :
    Intact (fs.moveEntry r source) removed := by
  have hread : ∀ d n, (fs.moveEntry r source).entry d n =
      if d = r.self ∧ n = r.old then none
      else if d = r.target ∧ n = r.new then some source
      else fs.entry d n :=
    fun _ _ => RamFs.entry_moveEntry (RamFs.isDir_of_entry hentry) htarget
  refine ⟨fun d n hd => ?_, fun d hd => ?_, fun d n i hi => ?_, fun i hne hp hi => ?_,
    fun i hle hlt hi => ?_, h.root, fun i hi => by simpa using h.lt_next i hi⟩
  · rw [RamFs.isDead_moveEntry] at hd
    rw [hread]
    split_ifs with hold hput
    · rfl
    · rw [hput.1, halive] at hd
      cases hd
    · exact h.dead_empty d n hd
  · rw [RamFs.isDead_moveEntry]
    exact h.dead_eq d (by simpa using hd)
  · rw [hread] at hi
    split_ifs at hi
    · cases hi
      exact h.listed _ _ _ hentry
    · exact h.listed d n i hi
  · by_cases heq : i = source
    · refine ⟨r.target, r.new, ?_⟩
      rw [hread, if_neg fun hsame => ?_, if_pos ⟨rfl, rfl⟩, heq]
      rw [← hsame.1, ← hsame.2, hfree] at hentry
      cases hentry
    · obtain ⟨d, n, hn⟩ := h.attached i hne (by simpa using hp) hi
      refine ⟨d, n, ?_⟩
      rw [hread, if_neg fun hold => ?_, if_neg fun hput => ?_]
      · exact hn
      · rw [hput.1, hput.2, hfree] at hn
        cases hn
      · rw [hold.1, hold.2, hentry] at hn
        exact heq (Option.some.inj hn).symm
  · simpa using h.created i hle (by simpa using hlt) hi

/-- Moving an entry over an existing one is removing that one first. -/
theorem replace {r : Rename} {source existing : ℕ} (h : Intact fs removed) (htree : fs.TreeOk)
    (hentry : fs.entry r.self r.old = some source) (htarget : fs.isDir r.target = true)
    (hexisting : fs.entry r.target r.new = some existing)
    (hempty : ∀ n, fs.entry existing n = none) (hother : ¬(r.self = r.target ∧ r.old = r.new))
    (halive : fs.isDead r.target = false) :
    Intact ((fs.markDead existing).moveEntry r source) (Function.update removed existing true) := by
  set fs₁ := (fs.markDead existing).mapEntries r.target (·.erase r.new) with hfs₁
  have htarget' : (fs.markDead existing).isDir r.target = true := by simpa using htarget
  have hself' : (fs.markDead existing).isDir r.self = true := by
    simpa using RamFs.isDir_of_entry hentry
  have hread : ∀ d n, fs₁.entry d n = if d = r.target ∧ n = r.new then none else fs.entry d n := by
    intro d n
    rw [hfs₁, RamFs.entry_erase htarget', RamFs.entry_markDead]
  have hne : r.target ≠ existing := fun heq => by
    have := hempty r.new
    rw [← heq, hexisting] at this
    cases this
  have halive₁ : fs₁.isDead r.target = false := by
    rw [hfs₁, RamFs.isDead_mapEntries]
    by_cases hdir : fs.isDir existing = true
    · rw [RamFs.isDead_markDead hdir, Function.update_of_ne hne]
      exact halive
    · rw [markDead_of_file (by simpa using hdir)]
      exact halive
  have hmove : Intact (fs₁.moveEntry r source) (Function.update removed existing true) := by
    refine (h.remove htree hexisting hempty).move ?_ (by simpa using htarget) ?_ halive₁
    · rw [hread, if_neg hother]
      exact hentry
    · rw [hread, if_pos ⟨rfl, rfl⟩]
  refine hmove.congr (fun d n => ?_) (fun d => by simp [hfs₁]) (fun d => by simp [hfs₁])
    (fun d => by simp [hfs₁]) (by simp [hfs₁])
  rw [RamFs.entry_moveEntry hself' htarget',
    RamFs.entry_moveEntry (by simpa [hfs₁] using hself') (by simpa [hfs₁] using htarget'), hread,
    RamFs.entry_markDead]
  split_ifs <;> rfl

/-- Dropping an inode that no directory lists. -/
theorem drop {ino : ℕ} (h : Intact fs removed) (hroot : ino ≠ RamFs.rootIno)
    (hunlisted : ∀ d n, fs.entry d n ≠ some ino) : Intact (fs.drop ino) removed := by
  -- an unlisted inode that is still present was removed, and so it lists nothing
  have hgone : fs.present ino → removed ino = true := by
    intro hp
    by_contra hne
    obtain ⟨d, n, hn⟩ := h.attached ino hroot hp (by simpa using hne)
    exact hunlisted d n hn
  refine ⟨fun d n hd => ?_, fun d hd => ?_, fun d n i hi => ?_, fun i hne hp hi => ?_,
    fun i hle hlt hi => ?_, h.root, fun i hi => ?_⟩
  · by_contra hne
    obtain ⟨i, hi⟩ := Option.ne_none_iff_exists'.mp hne
    obtain ⟨hi, hdne⟩ := RamFs.entry_drop.mp hi
    have hdead : fs.isDead d = true := by
      simpa [RamFs.isDead, RamFs.drop_dir, hdne] using hd
    rw [h.dead_empty d n hdead] at hi
    cases hi
  · obtain ⟨hdir, hdne⟩ := RamFs.isDir_drop.mp hd
    rw [← h.dead_eq d hdir]
    simp [RamFs.isDead, RamFs.drop_dir, hdne]
  · exact h.listed d n i (RamFs.entry_drop.mp hi).1
  · obtain ⟨d, n, hn⟩ := h.attached i hne (RamFs.present_drop.mp hp).1 hi
    refine ⟨d, n, RamFs.entry_drop.mpr ⟨hn, fun heq => ?_⟩⟩
    subst heq
    have hdir := RamFs.isDir_of_entry hn
    have hdead := (h.dead_eq d hdir).trans (hgone (RamFs.present_of_isDir hdir))
    rw [h.dead_empty d n hdead] at hn
    cases hn
  · have hp := h.created i hle (by rwa [RamFs.nextIno_drop] at hlt) hi
    refine RamFs.present_drop.mpr ⟨hp, fun heq => ?_⟩
    subst heq
    rw [hgone hp] at hi
    cases hi
  · rw [RamFs.nextIno_drop]
    exact h.lt_next i hi

/-- Every change keeps the tree intact, if a `rename` that moves its source finds its target
alive. -/
theorem change {ph : Phase} (h : Intact fs removed) (htree : fs.TreeOk) (hok : ph.Ok fs)
    (hguard : ∀ r source, ph = .rename r .bothLocked → fs.entry r.self r.old = some source →
      fs.isDead r.target = false)
    (hchange : Change fs removed ph fs' removed') : Intact fs' removed' := by
  cases hchange with
  | silent => exact h
  | create hcreate => exact h.create htree (htree.created hok hcreate).2
  | @unlink dir child name hentry hfile =>
    have hremove := h.remove htree hentry (entry_of_file hfile)
    rwa [markDead_of_file hfile] at hremove
  | rmdir hempty => exact h.remove htree hok.2 hempty
  | move hentry hfree =>
    exact h.move hentry hok.1.2 hfree (hguard _ _ rfl hentry)
  | @replaceFile r source file hentry hexisting hfile =>
    have hreplace := h.replace htree hentry hok.1.2 hexisting (entry_of_file hfile) (hok.2.1 rfl)
      (hguard _ _ rfl hentry)
    rwa [markDead_of_file hfile] at hreplace
  | @replaceDir r source existing hempty =>
    obtain ⟨⟨-, htarget⟩, hmoves, -, hentry, hexisting, -⟩ := hok
    refine h.replace htree hentry htarget hexisting hempty (hmoves rfl) ?_
    by_contra hdead
    rw [h.dead_empty _ _ (by simpa using hdead)] at hexisting
    cases hexisting

end Intact

/-! ## Runs -/

section Runs

variable {n : ℕ} {s s' : State n}

/-- A `rename` that finds its source under both locks finds its target directory not removed. -/
def MovesIntoLive (s : State n) : Op n → Prop
  | .advance i => ∀ r source, s.phase i = .rename r .bothLocked →
      s.fs.entry r.self r.old = some source → s.fs.isDead r.target = false
  | _ => True

/-- What users of the file system rely on. -/
structure TreeSound (s : State n) : Prop where
  dead_empty : ∀ d name, s.fs.isDead d = true → s.fs.entry d name = none
  unique_path : ∀ i, RamFs.rootIno ≤ i → i < s.fs.nextIno → s.removed i = false →
    ∃! path, s.fs.resolve path = some i
  parent_link : ∀ d name i, s.fs.entry d name = some i → s.fs.isDir i = true →
    s.fs.parentLink i = some d
  acyclic : ∀ i, ¬Relation.TransGen s.fs.Lists i i

/-- A directory that was not removed is at the end of a path. -/
theorem Intact.path_of_dir {fs : RamFs} {removed : ℕ → Bool} (h : Intact fs removed)
    (htree : fs.TreeOk) {d : ℕ} (hdir : fs.isDir d = true) (hd : removed d = false) :
    ∃ path, fs.resolve path = some d := by
  induction d using htree.grounded.induction with
  | _ d ih =>
    by_cases hroot : d = RamFs.rootIno
    · exact ⟨[], by rw [hroot]; rfl⟩
    · obtain ⟨d', name, hentry⟩ := h.attached d hroot (RamFs.present_of_isDir hdir) hd
      have hdir' := RamFs.isDir_of_entry hentry
      have halive : removed d' = false := by
        rw [← h.dead_eq d' hdir']
        by_contra hdead
        rw [h.dead_empty d' name (by simpa using hdead)] at hentry
        cases hentry
      obtain ⟨path, hpath⟩ := ih d' (htree.up_of_entry hentry hdir) hdir' halive
      exact ⟨path ++ [name], by rw [RamFs.resolve_append, hpath]; exact hentry⟩

theorem Intact.treeSound (h : Intact s.fs s.removed) (htree : s.fs.TreeOk) : TreeSound s where
  dead_empty := h.dead_empty
  unique_path i hle hlt hi := by
    have hpath : ∃ path, s.fs.resolve path = some i := by
      have hp := h.created i hle hlt hi
      by_cases hroot : i = RamFs.rootIno
      · exact ⟨[], by rw [hroot]; rfl⟩
      · obtain ⟨d, name, hentry⟩ := h.attached i hroot hp hi
        have hdir := RamFs.isDir_of_entry hentry
        have halive : s.removed d = false := by
          rw [← h.dead_eq d hdir]
          by_contra hdead
          rw [h.dead_empty d name (by simpa using hdead)] at hentry
          cases hentry
        obtain ⟨path, hpath⟩ := h.path_of_dir htree hdir halive
        exact ⟨path ++ [name], by rw [RamFs.resolve_append, hpath]; exact hentry⟩
    obtain ⟨path, hpath⟩ := hpath
    exact ⟨path, hpath, fun path' hpath' => htree.path_unique hpath' hpath⟩
  parent_link := htree.parent
  acyclic := htree.acyclic

theorem Intact.step {op : Op n} (h : Intact s.fs s.removed) (hinv : Inv s)
    (hstep : Run.Guarded MovesIntoLive State.Step s op s') : Intact s'.fs s'.removed := by
  obtain ⟨hguard, hstep⟩ := hstep
  cases op with
  | call i call =>
    obtain ⟨-, hdir, rfl⟩ := hstep
    obtain ⟨hfs, hremoved, -⟩ := start_phase (i := i) hdir
    rwa [hfs, hremoved]
  | advance i =>
    exact h.change hinv.tree (hinv.ok i) (fun r source hph => hguard r source hph)
      (advance_change (hinv.ok i) hstep)
  | drop ino =>
    obtain ⟨hroot, hunlisted, -, rfl⟩ := hstep
    exact h.drop hroot hunlisted

/-- In every run in which a `rename` that moves its source finds its target directory alive under
the locks, the tree is sound in every state. -/
theorem reachable_treeSound
    (h : Run.Reachable State.Initial (Run.Guarded MovesIntoLive State.Step) s) : TreeSound s := by
  have hboth : Inv s ∧ Intact s.fs s.removed := by
    refine h.invariant (P := fun s => Inv s ∧ Intact s.fs s.removed) (fun s hinit => ?_)
      fun s op s' hpre hstep => ⟨hpre.1.step hstep.2, hpre.2.step hpre.1 hstep⟩
    obtain ⟨⟨limit, hfs⟩, -, hremoved⟩ := id hinit
    refine ⟨Inv.initial hinit, ?_⟩
    rw [hfs, hremoved]
    exact Intact.initial limit
  exact hboth.2.treeSound hboth.1.tree

/-! ## Two runs -/

/-- The target of a `rename` that goes past its two locks is not dead. -/
def targetAlive (s : State n) : Op n → Bool
  | .advance i =>
    match s.phase i with
    | .rename r .bothLocked => !s.fs.isDead r.target
    | _ => true
  | _ => true

theorem targetAlive_sound (s : State n) (op : Op n) (_ : Run.Reachable State.Initial State.Step s)
    (hcheck : targetAlive s op = true) : MovesIntoLive s op := by
  cases op with
  | advance i =>
    intro r source hph _
    simpa [targetAlive, hph] using hcheck
  | call i call => trivial
  | drop ino => trivial

/-- `/f` is renamed to `/t/g`, and then another thread tries to remove `/t`. -/
def renameThenRmdir : State 2 :=
  State.runChecked targetAlive (State.fresh 2 0)
    (State.createOps 0 1 [116] .directory ++ State.createOps 0 1 [102] .file ++
      .call 0 (.rename ⟨1, [102], 2, [103]⟩) :: State.steps 0 9 ++
      .call 1 (.rmdir 1 [116]) :: State.steps 1 4)

theorem reachable_treeSound_renameThenRmdir :
    renameThenRmdir.fs.entry 2 [103] = some 3 ∧ TreeSound renameThenRmdir :=
  ⟨by decide +kernel, reachable_treeSound
    (State.reachable_runChecked targetAlive_sound (.start (State.initial_fresh 2 0)))⟩

/-- `/f` is being renamed to `/t/g` when another thread removes `/t`. -/
def rmdirDuringRename : State 2 :=
  State.runChecked (fun _ _ => true) (State.fresh 2 0)
    (State.createOps 0 1 [116] .directory ++ State.createOps 0 1 [102] .file ++
      .call 0 (.rename ⟨1, [102], 2, [103]⟩) :: State.steps 0 2 ++
      .call 1 (.rmdir 1 [116]) :: State.steps 1 4 ++ State.steps 0 7)

/-- The removed directory `/t` ends up listing the file. -/
theorem not_treeSound_rmdirDuringRename : ¬∀ (n : ℕ) (s : State n),
    Run.Reachable State.Initial State.Step s → TreeSound s := by
  intro hall
  have hreach : Run.Reachable State.Initial State.Step rmdirDuringRename :=
    (State.reachable_runChecked (fun _ _ _ _ => trivial)
      (.start (State.initial_fresh 2 0))).of_guarded
  have hdead : rmdirDuringRename.fs.isDead 2 = true := by decide +kernel
  have hentry : rmdirDuringRename.fs.entry 2 [103] = some 3 := by decide +kernel
  have hempty := (hall 2 rmdirDuringRename hreach).dead_empty 2 [103] hdead
  rw [hentry] at hempty
  cases hempty

end Runs

end Threads

end SaeOS.Fs
