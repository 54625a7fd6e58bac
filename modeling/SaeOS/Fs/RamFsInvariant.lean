import SaeOS.Fs.RamFsThreads

/-!
# The invariant of concurrent ramfs threads

What a thread knows at each phase (`Phase.Ok`): the directories it works on exist, an entry it read
under a lock is still there, and, for a `rename`, what its walks along the parent links have
established. Entry maps change only under their lock and parent links only under the rename lock,
so what a thread knows stays true while others run.
-/

namespace SaeOS.Fs

open RamFs (Rename)
open Forest (Within)

namespace Threads

variable {fs fs' : RamFs}

/-! ## What a thread knows -/

/-- No directory under the source name has the target within it, but for one that may still be
unchecked. -/
def NoLoop (fs : RamFs) (r : Rename) (unchecked : Option ℕ) : Prop :=
  ∀ m, fs.entry r.self r.old = some m → fs.isDir m = true → unchecked ≠ some m →
    ¬Within fs.up r.target m

/-- If the links lead from `start` to `goal`, they do so through `pos`. -/
def OnPath (fs : RamFs) (start pos goal : ℕ) : Prop :=
  Within fs.up start goal → Within fs.up start pos ∧ Within fs.up pos goal

/-- What a `rename` that passed its first checks knows at each stage. -/
def Stage.Ok (fs : RamFs) (r : Rename) : Stage → Prop
  | .entered | .sameWant | .sameLocked | .lookupWant | .lookupLocked => True
  | .walkMoved moved pos =>
    fs.present pos ∧ NoLoop fs r (some moved) ∧ OnPath fs r.target pos moved
  | .walkTarget pos =>
    fs.present pos ∧ NoLoop fs r none ∧ OnPath fs r.target pos r.self ∧
      (Within fs.up pos r.target → pos = r.target)
  | .walkSource pos =>
    fs.present pos ∧ NoLoop fs r none ∧ ¬Within fs.up r.target r.self ∧
      OnPath fs r.self pos r.target
  | .lockFirst sourceFirst =>
    NoLoop fs r none ∧ (r.self ≠ r.target →
      ¬Within fs.up (Stage.first r sourceFirst) (Stage.second r sourceFirst))
  | .lockSecond sourceFirst =>
    NoLoop fs r none ∧ ¬Within fs.up (Stage.first r sourceFirst) (Stage.second r sourceFirst)
  | .bothLocked => NoLoop fs r none
  | .wantExisting source existing | .allLocked source existing =>
    NoLoop fs r none ∧ fs.entry r.self r.old = some source ∧
      fs.entry r.target r.new = some existing ∧
      fs.isDir existing = true ∧ existing ≠ r.self

/-- The stages of a `rename` that does not end by looking its source up. -/
def Stage.moves : Stage → Bool
  | .entered | .sameWant | .sameLocked => false
  | _ => true

/-- What a thread knows at each phase. -/
def Phase.Ok (fs : RamFs) : Phase → Prop
  | .idle _ => True
  | .want dir _ | .locked dir _ | .rmdirWant dir _ | .rmdirLocked dir _ => fs.isDir dir = true
  | .rmdirWantChild dir name child | .rmdirBoth dir name child =>
    fs.isDir child = true ∧ fs.entry dir name = some child
  | .renameWant r => fs.isDir r.self = true ∧ fs.isDir r.target = true
  | .rename r stage =>
    (fs.isDir r.self = true ∧ fs.isDir r.target = true) ∧
      (stage.moves = true → ¬(r.self = r.target ∧ r.old = r.new)) ∧ stage.Ok fs r

/-! ## What other threads change -/

/-- A change that moves no directory: parent links and entries go, or come with a new inode. -/
structure Quiet (fs fs' : RamFs) : Prop where
  up : ∀ y z, fs.present y → fs'.up y = some z → fs.up y = some z
  entry : ∀ d n m, fs'.entry d n = some m → fs.entry d n = some m ∨ ¬fs.present m
  isDir : ∀ d, fs.present d → fs'.isDir d = true → fs.isDir d = true

theorem present_of_within {a b : ℕ} (h : Within fs.up a b) (ha : fs.present a) : fs.present b := by
  induction h with
  | refl => exact ha
  | tail _ hstep _ => exact (RamFs.up_eq_some.mp hstep).2

namespace Quiet

variable {a b c : ℕ}

/-- A quiet change does not put an old directory below another. -/
theorem within (h : Quiet fs fs') (ha : fs.present a) (hab : Within fs'.up a b) :
    Within fs.up a b := by
  induction hab with
  | refl => exact Within.refl a
  | tail _ hstep ih => exact ih.trans (Within.parent (h.up _ _ (present_of_within ih ha) hstep))

theorem noLoop {r : Rename} {unchecked : Option ℕ} (h : Quiet fs fs')
    (htarget : fs.present r.target) (hloop : NoLoop fs r unchecked) : NoLoop fs' r unchecked := by
  intro m hentry hdir hne hwithin
  have hold := h.within htarget hwithin
  have hm := present_of_within hold htarget
  rcases h.entry _ _ _ hentry with hentry | hnew
  · exact hloop m hentry (h.isDir m hm hdir) hne hold
  · exact hnew hm

/-- What is left of a path still leads through the same directory. -/
theorem onPath (h : Quiet fs fs') (hground : Forest.Grounded fs.up) (ha : fs.present a)
    (hpath : OnPath fs a b c) : OnPath fs' a b c := by
  intro hac
  obtain ⟨hab, hbc⟩ := hpath (h.within ha hac)
  clear hpath
  induction hac using Relation.ReflTransGen.head_induction_on with
  | refl =>
    obtain rfl := hground.within_antisymm hab hbc
    exact ⟨Within.refl _, Within.refl _⟩
  | head hstep hrest ih =>
    rename_i x y
    have hold := h.up x y ha hstep
    by_cases heq : x = b
    · rw [← heq]
      exact ⟨Within.refl x, (Within.parent hstep).trans hrest⟩
    · obtain ⟨y', hy', hyb⟩ := hab.up_of_ne heq
      obtain rfl : y = y' := Option.some.inj (hold.symm.trans hy')
      obtain ⟨hyb', hbc'⟩ := ih (RamFs.up_eq_some.mp hold).2 hyb
      exact ⟨(Within.parent hstep).trans hyb', hbc'⟩

end Quiet

/-- What a step of a thread in phase `ph` can change. -/
structure Effect (fs fs' : RamFs) (ph : Phase) : Prop where
  entry : ∀ d n, d ∉ ph.holds → fs'.entry d n = fs.entry d n
  isDead : ∀ d, d ∉ ph.holds → fs.present d → fs'.isDead d = fs.isDead d
  isDir : ∀ d, fs.isDir d = true → fs'.isDir d = true
  present : ∀ d, fs.present d → fs'.present d
  quiet : ph.holdsRename = false → Quiet fs fs'

/-- What a `rename` knows survives a quiet change that keeps the entries it read under a lock. -/
theorem Stage.Ok.quiet {r : Rename} {stage : Stage} (hok : stage.Ok fs r) (htree : fs.TreeOk)
    (hself : fs.present r.self) (htarget : fs.present r.target) (hquiet : Quiet fs fs')
    (hdir : ∀ d, d ∈ stage.uses → fs.isDir d = true → fs'.isDir d = true)
    (hpresent : ∀ d, d ∈ stage.uses → fs.present d → fs'.present d)
    (hentry : ∀ d n, d ∈ stage.holds r → fs'.entry d n = fs.entry d n) : stage.Ok fs' r := by
  have hground := htree.grounded
  -- the directory locked first exists, whichever it is
  have hfirst : ∀ sourceFirst, fs.present (Stage.first r sourceFirst) := by
    intro sourceFirst
    cases sourceFirst
    · exact htarget
    · exact hself
  cases stage with
  | entered | sameWant | sameLocked | lookupWant | lookupLocked => trivial
  | walkMoved moved pos =>
    obtain ⟨hpos, hloop, hpath⟩ := hok
    exact ⟨hpresent pos (by simp [Stage.uses]) hpos, hquiet.noLoop htarget hloop,
      hquiet.onPath hground htarget hpath⟩
  | walkTarget pos =>
    obtain ⟨hpos, hloop, hpath, hback⟩ := hok
    exact ⟨hpresent pos (by simp [Stage.uses]) hpos, hquiet.noLoop htarget hloop,
      hquiet.onPath hground htarget hpath,
      fun hwithin => hback (hquiet.within hpos hwithin)⟩
  | walkSource pos =>
    obtain ⟨hpos, hloop, hnot, hpath⟩ := hok
    exact ⟨hpresent pos (by simp [Stage.uses]) hpos, hquiet.noLoop htarget hloop,
      fun hwithin => hnot (hquiet.within htarget hwithin), hquiet.onPath hground hself hpath⟩
  | lockFirst sourceFirst =>
    obtain ⟨hloop, hnot⟩ := hok
    exact ⟨hquiet.noLoop htarget hloop,
      fun hne hwithin => hnot hne (hquiet.within (hfirst sourceFirst) hwithin)⟩
  | lockSecond sourceFirst =>
    obtain ⟨hloop, hnot⟩ := hok
    exact ⟨hquiet.noLoop htarget hloop,
      fun hwithin => hnot (hquiet.within (hfirst sourceFirst) hwithin)⟩
  | bothLocked => exact hquiet.noLoop htarget hok
  | wantExisting source existing | allLocked source existing =>
    obtain ⟨hloop, hsource, hexisting, hexistingDir, hne⟩ := hok
    refine ⟨hquiet.noLoop htarget hloop, ?_, ?_, hdir existing (by simp [Stage.uses]) hexistingDir,
      hne⟩
    · rwa [hentry r.self r.old (by simp [Stage.holds])]
    · rwa [hentry r.target r.new (by simp [Stage.holds])]

/-- What a thread knows survives the steps of others. -/
theorem Phase.Ok.frame {ph ph' : Phase} (hok : ph.Ok fs) (htree : fs.TreeOk)
    (heffect : Effect fs fs' ph') (hlocks : ∀ d ∈ ph.holds, d ∉ ph'.holds)
    (hrename : ph.holdsRename = true → ph'.holdsRename = false) : ph.Ok fs' := by
  cases ph with
  | idle result => trivial
  | want dir op | locked dir op | rmdirWant dir name | rmdirLocked dir name =>
    exact heffect.isDir dir hok
  | rmdirWantChild dir name child | rmdirBoth dir name child =>
    obtain ⟨hchild, hentry⟩ := hok
    refine ⟨heffect.isDir child hchild, ?_⟩
    rwa [heffect.entry dir name (hlocks dir (by simp [Phase.holds]))]
  | renameWant r => exact ⟨heffect.isDir _ hok.1, heffect.isDir _ hok.2⟩
  | rename r stage =>
    obtain ⟨⟨hself, htarget⟩, hmoves, hstage⟩ := hok
    refine ⟨⟨heffect.isDir _ hself, heffect.isDir _ htarget⟩, hmoves, ?_⟩
    exact hstage.quiet htree (RamFs.present_of_isDir hself) (RamFs.present_of_isDir htarget)
      (heffect.quiet (hrename rfl)) (fun d _ => heffect.isDir d) (fun d _ => heffect.present d)
      (fun d n hd => heffect.entry d n (hlocks d hd))

/-- A `rename` refers to every directory it has locked. -/
theorem Stage.mem_uses_of_holds {r : Rename} {stage : Stage} {d : ℕ} (h : d ∈ stage.holds r) :
    d ∈ r.self :: r.target :: stage.uses := by
  cases stage with
  | entered | sameWant | lookupWant | walkMoved | walkTarget | walkSource | lockFirst =>
    exact absurd h List.not_mem_nil
  | sameLocked | lookupLocked =>
    rw [List.mem_singleton.mp h]
    exact List.mem_cons_self
  | lockSecond sourceFirst =>
    rw [List.mem_singleton.mp h]
    cases sourceFirst <;> simp [Stage.first]
  | bothLocked | wantExisting source existing | allLocked source existing =>
    simp only [Stage.holds, List.mem_cons, List.not_mem_nil, or_false] at h
    simp only [Stage.uses, List.mem_cons]
    tauto

/-- Dropping an inode that no directory lists is quiet. -/
theorem quiet_drop (fs : RamFs) (ino : ℕ) : Quiet fs (fs.drop ino) where
  up y z _ hz := by
    rw [RamFs.up_eq_some, RamFs.parentLink_drop, RamFs.present_drop] at hz
    exact RamFs.up_eq_some.mpr ⟨hz.1.1, hz.2.1⟩
  entry d n m hm := Or.inl (RamFs.entry_drop.mp hm).1
  isDir d _ hd := (RamFs.isDir_drop.mp hd).1

/-- What a thread knows survives the drop of an inode that it does not use. -/
theorem Phase.Ok.drop {ph : Phase} {ino : ℕ} (hok : ph.Ok fs) (htree : fs.TreeOk)
    (huses : ino ∉ ph.uses) : ph.Ok (fs.drop ino) := by
  have hdir : ∀ d, d ∈ ph.uses → fs.isDir d = true → (fs.drop ino).isDir d = true :=
    fun d hd hdir => RamFs.isDir_drop.mpr ⟨hdir, fun heq => huses (heq ▸ hd)⟩
  have hentry : ∀ d n, d ∈ ph.uses → (fs.drop ino).entry d n = fs.entry d n := by
    intro d n hd
    have hne : d ≠ ino := fun heq => huses (heq ▸ hd)
    apply Option.ext
    intro m
    rw [RamFs.entry_drop]
    simp [hne]
  cases ph with
  | idle result => trivial
  | want dir op | locked dir op | rmdirWant dir name | rmdirLocked dir name =>
    exact hdir dir (by simp [Phase.uses]) hok
  | rmdirWantChild dir name child | rmdirBoth dir name child =>
    obtain ⟨hchild, hread⟩ := hok
    exact ⟨hdir child (by simp [Phase.uses]) hchild,
      (hentry dir name (by simp [Phase.uses])).trans hread⟩
  | renameWant r =>
    exact ⟨hdir _ (by simp [Phase.uses]) hok.1, hdir _ (by simp [Phase.uses]) hok.2⟩
  | rename r stage =>
    obtain ⟨⟨hself, htarget⟩, hmoves, hstage⟩ := hok
    refine ⟨⟨hdir _ (by simp [Phase.uses]) hself, hdir _ (by simp [Phase.uses]) htarget⟩,
      hmoves, ?_⟩
    refine hstage.quiet htree (RamFs.present_of_isDir hself) (RamFs.present_of_isDir htarget)
      (quiet_drop fs ino) (fun d hd => hdir d (by simp [Phase.uses, hd]))
      (fun d hd hp => RamFs.present_drop.mpr ⟨hp, fun heq => huses ?_⟩) fun d n hd => ?_
    · rw [← heq]
      simp [Phase.uses, hd]
    · exact hentry d n (Stage.mem_uses_of_holds hd)

/-! ## What a step changes -/

/-- The changes that a step of a thread in a given phase can make to the file system and to the
record of removed inodes. -/
inductive Change (fs : RamFs) (removed : ℕ → Bool) : Phase → RamFs → (ℕ → Bool) → Prop
  | silent {ph : Phase} : Change fs removed ph fs removed
  | create {dir child : ℕ} {name : Name} {kind : InodeKind} {fs' : RamFs}
      (hcreate : fs.create dir name kind = .ok (child, fs')) :
      Change fs removed (.locked dir (.create name kind)) fs' removed
  | unlink {dir child : ℕ} {name : Name} (hentry : fs.entry dir name = some child)
      (hfile : fs.isDir child = false) :
      Change fs removed (.locked dir (.unlink name)) (fs.mapEntries dir (·.erase name))
        (Function.update removed child true)
  | rmdir {dir child : ℕ} {name : Name} (hempty : ∀ n, fs.entry child n = none) :
      Change fs removed (.rmdirBoth dir name child)
        ((fs.markDead child).mapEntries dir (·.erase name)) (Function.update removed child true)
  | move {r : Rename} {source : ℕ} (hentry : fs.entry r.self r.old = some source)
      (hfree : fs.entry r.target r.new = none) :
      Change fs removed (.rename r .bothLocked) (fs.moveEntry r source) removed
  | replaceFile {r : Rename} {source file : ℕ} (hentry : fs.entry r.self r.old = some source)
      (hexisting : fs.entry r.target r.new = some file) (hfile : fs.isDir file = false) :
      Change fs removed (.rename r .bothLocked) (fs.moveEntry r source)
        (Function.update removed file true)
  | replaceDir {r : Rename} {source existing : ℕ} (hempty : ∀ n, fs.entry existing n = none) :
      Change fs removed (.rename r (.allLocked source existing))
        ((fs.markDead existing).moveEntry r source) (Function.update removed existing true)

namespace Change

variable {removed removed' : ℕ → Bool} {ph : Phase}

/-- Every change keeps the tree. -/
theorem treeOk (h : Change fs removed ph fs' removed') (hok : ph.Ok fs) (htree : fs.TreeOk) :
    fs'.TreeOk := by
  cases h with
  | silent => exact htree
  | create hcreate => exact htree.of_created hok (htree.created hok hcreate).2
  | unlink hentry hfile => exact htree.erase (RamFs.isDir_of_entry hentry)
  | rmdir hempty =>
    refine (htree.markDead _).erase ?_
    rw [RamFs.isDir_markDead]
    exact RamFs.isDir_of_entry hok.2
  | move hentry hfree =>
    obtain ⟨⟨-, htarget⟩, -, hloop⟩ := hok
    exact htree.moveEntry hentry htarget fun hdir => hloop _ hentry hdir (by simp)
  | replaceFile hentry hexisting hfile =>
    obtain ⟨⟨-, htarget⟩, -, hloop⟩ := hok
    exact htree.moveEntry hentry htarget fun hdir => hloop _ hentry hdir (by simp)
  | replaceDir hempty =>
    obtain ⟨⟨-, htarget⟩, -, hloop, hentry, -⟩ := hok
    refine (htree.markDead _).moveEntry (by simpa using hentry) (by simpa using htarget)
      fun hdir => ?_
    rw [RamFs.up_markDead]
    rw [RamFs.isDir_markDead] at hdir
    exact hloop _ hentry hdir (by simp)

/-- Taking entries away moves no directory. -/
theorem quiet_shrink (hup : fs'.up = fs.up) (hdir : ∀ d, fs'.isDir d = fs.isDir d)
    (hentry : ∀ d n m, fs'.entry d n = some m → fs.entry d n = some m) : Quiet fs fs' where
  up y z _ hz := by rwa [hup] at hz
  entry d n m hm := Or.inl (hentry d n m hm)
  isDir d _ hd := (hdir d).symm.trans hd

theorem quiet_created {dir : ℕ} {name : Name} (htree : fs.TreeOk)
    (hc : RamFs.Created fs fs' dir name) : Quiet fs fs' := by
  have hfresh : ¬fs.present fs.nextIno := fun hp => absurd (htree.lt_next _ hp) (lt_irrefl _)
  have hne : ∀ d, fs.present d → d ≠ fs.nextIno := fun d hd heq => hfresh (heq ▸ hd)
  refine ⟨fun y z hy hz => ?_, fun d n m hm => ?_, fun d hd hdir => ?_⟩
  · rw [RamFs.up_eq_some, hc.parentLink y (hne y hy), hc.present] at hz
    obtain ⟨hlink, rfl | hp⟩ := hz
    · exact absurd (htree.link_lt y _ hlink) (lt_irrefl _)
    · exact RamFs.up_eq_some.mpr ⟨hlink, hp⟩
  · rw [hc.entry] at hm
    split_ifs at hm
    · cases hm
      exact Or.inr hfresh
    · exact Or.inl hm
  · exact (hc.isDir d (hne d hd)).symm.trans hdir

/-- A change is confined to the entry maps that the thread has locked, and moves directories only
under the rename lock. -/
theorem effect (h : Change fs removed ph fs' removed') (hok : ph.Ok fs) (htree : fs.TreeOk) :
    Effect fs fs' ph := by
  cases h with
  | silent =>
    exact ⟨fun _ _ _ => rfl, fun _ _ _ => rfl, fun _ => id, fun _ => id,
      fun _ => quiet_shrink rfl (fun _ => rfl) fun _ _ _ => id⟩
  | @create dir child name kind _ hcreate =>
    obtain ⟨-, hc⟩ := htree.created hok hcreate
    have hdir : dir ∈ (Phase.locked dir (.create name kind)).holds := List.mem_singleton_self _
    refine ⟨fun d n hd => ?_, fun d _ _ => hc.isDead d, fun d hd => ?_,
      fun d hd => (hc.present d).mpr (Or.inr hd), fun _ => quiet_created htree hc⟩
    · have hne : ¬(d = dir ∧ n = name) := fun heq => hd (heq.1 ▸ hdir)
      rw [hc.entry, if_neg hne]
    · have hne : d ≠ fs.nextIno := fun heq =>
        absurd (htree.lt_next _ (heq ▸ RamFs.present_of_isDir hd)) (lt_irrefl _)
      exact (hc.isDir d hne).trans hd
  | @unlink dir child name hentry hfile =>
    have hdir := RamFs.isDir_of_entry hentry
    have hheld : dir ∈ (Phase.locked dir (.unlink name)).holds := List.mem_singleton_self _
    refine ⟨fun d n hd => ?_, fun d _ _ => by simp, fun d hd => by simpa using hd,
      fun d hd => by simpa using hd,
      fun _ => quiet_shrink (RamFs.up_mapEntries _) (fun d => by simp) fun d n m hm => ?_⟩
    · have hne : ¬(d = dir ∧ n = name) := fun heq => hd (heq.1 ▸ hheld)
      rw [RamFs.entry_erase hdir, if_neg hne]
    · rw [RamFs.entry_erase hdir] at hm
      split_ifs at hm
      exact hm
  | @rmdir dir child name hempty =>
    obtain ⟨hchild, hentry⟩ := hok
    have hdir : (fs.markDead child).isDir dir = true := by
      rw [RamFs.isDir_markDead]
      exact RamFs.isDir_of_entry hentry
    refine ⟨fun d n hd => ?_, fun d hd _ => ?_, fun d hd => by simpa using hd,
      fun d hd => by simpa using hd,
      fun _ => quiet_shrink ((RamFs.up_mapEntries _).trans RamFs.up_markDead) (fun d => by simp)
        fun d n m hm => ?_⟩
    · rw [RamFs.entry_erase hdir, if_neg fun heq => hd (by simp [Phase.holds, heq.1]),
        RamFs.entry_markDead]
    · have hne : d ≠ child := fun heq => hd (by simp [Phase.holds, heq])
      rw [RamFs.isDead_mapEntries, RamFs.isDead_markDead hchild, Function.update_of_ne hne]
    · rw [RamFs.entry_erase hdir, RamFs.entry_markDead] at hm
      split_ifs at hm
      exact hm
  | move hentry hfree =>
    obtain ⟨⟨hself, htarget⟩, -⟩ := hok
    refine ⟨fun d n hd => ?_, fun d _ _ => by simp, fun d hd => by simpa using hd,
      fun d hd => by simpa using hd,
      fun hfalse => by cases hfalse⟩
    rw [RamFs.entry_moveEntry hself htarget,
      if_neg fun heq => hd (by simp [Phase.holds, Stage.holds, heq.1]),
      if_neg fun heq => hd (by simp [Phase.holds, Stage.holds, heq.1])]
  | replaceFile hentry hexisting hfile =>
    obtain ⟨⟨hself, htarget⟩, -⟩ := hok
    refine ⟨fun d n hd => ?_, fun d _ _ => by simp, fun d hd => by simpa using hd,
      fun d hd => by simpa using hd,
      fun hfalse => by cases hfalse⟩
    rw [RamFs.entry_moveEntry hself htarget,
      if_neg fun heq => hd (by simp [Phase.holds, Stage.holds, heq.1]),
      if_neg fun heq => hd (by simp [Phase.holds, Stage.holds, heq.1])]
  | @replaceDir r source existing hempty =>
    obtain ⟨⟨hself, htarget⟩, -, -, -, -, hexisting, -⟩ := hok
    refine ⟨fun d n hd => ?_, fun d hd _ => ?_, fun d hd => by simpa using hd,
      fun d hd => by simpa using hd,
      fun hfalse => by cases hfalse⟩
    · rw [RamFs.entry_moveEntry (by simpa using hself) (by simpa using htarget),
        if_neg fun heq => hd (by simp [Phase.holds, Stage.holds, heq.1]),
        if_neg fun heq => hd (by simp [Phase.holds, Stage.holds, heq.1]), RamFs.entry_markDead]
    · have hne : d ≠ existing := fun heq => hd (by simp [Phase.holds, Stage.holds, heq])
      rw [RamFs.isDead_moveEntry, RamFs.isDead_markDead hexisting, Function.update_of_ne hne]

end Change

/-- The cases of `renameSource`. -/
theorem renameSource_cases {r : Rename} {source : ℕ} {replaced : Option ℕ}
    (h : fs.renameSource r = .ok (source, replaced)) :
    fs.entry r.self r.old = some source ∧
      ((replaced = none ∧ fs.entry r.target r.new = none) ∨
        (∃ file, replaced = none ∧ fs.entry r.target r.new = some file ∧ fs.isDir file = false) ∨
        ∃ existing, replaced = some existing ∧ fs.entry r.target r.new = some existing ∧
          fs.isDir existing = true ∧ existing ≠ r.self) := by
  unfold RamFs.renameSource at h
  split at h
  next => cases h
  next source' hsource =>
    split at h
    next hnone =>
      cases h
      exact ⟨hsource, Or.inl ⟨rfl, hnone⟩⟩
    next existing hexisting =>
      split at h
      next hdir =>
        split_ifs at h with hself
        cases h
        exact ⟨hsource, Or.inr (Or.inr ⟨existing, rfl, hexisting, by assumption, hself⟩)⟩
      next => cases h
      next => cases h
      next hfile =>
        cases h
        exact ⟨hsource, Or.inr (Or.inl ⟨existing, rfl, hexisting, by assumption⟩)⟩

section Step

variable {n : ℕ} {s s' : State n} {i : Fin n}

theorem acquire_eq {dir : ℕ} {ph : Phase} (h : s.acquire i dir ph = some s') :
    s.free dir = true ∧ s' = s.goto i ph := by
  unfold State.acquire at h
  split_ifs at h with hfree
  exact ⟨hfree, (Option.some.inj h).symm⟩

theorem acquire_change {dir : ℕ} {ph ph' : Phase} (h : s.acquire i dir ph = some s') :
    Change s.fs s.removed ph' s'.fs s'.removed := by
  rw [(acquire_eq h).2]
  exact .silent

theorem walk_fs {pos goal : ℕ} {found ended : State n} {next : ℕ → Stage} {r : Rename}
    (hfound : found.fs = s.fs ∧ found.removed = s.removed)
    (hended : ended.fs = s.fs ∧ ended.removed = s.removed) :
    (s.walk i pos goal found ended next r).fs = s.fs ∧
      (s.walk i pos goal found ended next r).removed = s.removed := by
  unfold State.walk
  split_ifs
  · exact hfound
  · split
    · exact hended
    · exact ⟨rfl, rfl⟩

theorem walk_change {ph : Phase} (hfs : s'.fs = s.fs ∧ s'.removed = s.removed) :
    Change s.fs s.removed ph s'.fs s'.removed := by
  rw [hfs.1, hfs.2]
  exact .silent

theorem renameLocked_some {r : Rename} {source existing : ℕ} {fs' : RamFs}
    (h : fs.renameLocked r source (some existing) = .ok fs') :
    (∀ n, fs.entry existing n = none) ∧ fs' = (fs.markDead existing).moveEntry r source := by
  unfold RamFs.renameLocked at h
  dsimp only at h
  split_ifs at h with hempty
  cases h
  exact ⟨(Entries.isEmpty_iff_forall _).mp hempty, rfl⟩

/-- A step of a `rename`. -/
theorem advanceRename_change {r : Rename} {stage : Stage}
    (hok : (Phase.rename r stage).Ok s.fs) (h : s.advanceRename i r stage = some s') :
    Change s.fs s.removed (.rename r stage) s'.fs s'.removed := by
  cases stage with
  | entered =>
    simp only [State.advanceRename] at h
    split_ifs at h <;> cases h <;> exact .silent
  | sameWant | lookupWant | lockSecond sourceFirst | wantExisting source existing =>
    exact acquire_change h
  | sameLocked =>
    cases h
    exact .silent
  | lookupLocked =>
    simp only [State.advanceRename] at h
    split at h
    · cases h
      exact .silent
    · split_ifs at h <;> cases h <;> exact .silent
  | walkMoved moved pos | walkTarget pos | walkSource pos =>
    cases h
    exact walk_change (walk_fs ⟨rfl, rfl⟩ ⟨rfl, rfl⟩)
  | lockFirst sourceFirst =>
    simp only [State.advanceRename] at h
    split_ifs at h <;> exact acquire_change h
  | bothLocked =>
    simp only [State.advanceRename] at h
    split at h
    · cases h
      exact .silent
    · rename_i source hsource
      cases h
      obtain ⟨hentry, ⟨-, hfree⟩ | ⟨file, -, hfile, hnotDir⟩ | ⟨existing, hsome, -⟩⟩ :=
        renameSource_cases hsource
      · simp only [State.commit, RamFs.renameLocked, State.finish, State.remove, hfree]
        exact .move hentry hfree
      · simp only [State.commit, RamFs.renameLocked, State.finish, State.remove, hfile]
        exact .replaceFile hentry hfile hnotDir
      · cases hsome
    · cases h
      exact .silent
  | allLocked source existing =>
    cases h
    obtain ⟨-, -, hexisting, -, -⟩ := hok.2.2
    unfold State.commit
    split
    · exact .silent
    · rename_i fs' hlocked
      obtain ⟨hempty, rfl⟩ := renameLocked_some hlocked
      simp only [State.finish, State.remove, hexisting]
      exact .replaceDir hempty

/-- A step changes the file system in one of the ways of `Change`. -/
theorem advance_change (hok : (s.phase i).Ok s.fs) (h : s.advance i = some s') :
    Change s.fs s.removed (s.phase i) s'.fs s'.removed := by
  unfold State.advance at h
  cases hph : s.phase i with
  | idle result =>
    rw [hph] at h
    cases h
  | want dir op | rmdirWant dir name | rmdirWantChild dir name child =>
    rw [hph] at h
    exact acquire_change h
  | locked dir op =>
    rw [hph] at h
    cases h
    cases op with
    | lookup name => exact .silent
    | create name kind =>
      simp only [State.runEntryOp]
      split
      · exact .silent
      · rename_i hcreate
        exact .create hcreate
    | unlink name =>
      simp only [State.runEntryOp]
      split
      · exact .silent
      · rename_i fs' hunlink
        unfold RamFs.unlink at hunlink
        split at hunlink
        · cases hunlink
        · rename_i child hentry
          split_ifs at hunlink with hdir
          cases hunlink
          have hread : s.fs.entry dir name = some child := hentry
          simp only [State.finish, State.remove, hread]
          exact .unlink hread (by simpa using hdir)
  | rmdirLocked dir name =>
    rw [hph] at h
    dsimp only at h
    split at h <;> cases h <;> exact .silent
  | rmdirBoth dir name child =>
    rw [hph] at h
    dsimp only at h
    split at h
    · cases h
      exact .silent
    · rename_i fs' hlocked
      cases h
      unfold RamFs.rmdirLocked at hlocked
      split_ifs at hlocked with hempty
      cases hlocked
      exact .rmdir ((Entries.isEmpty_iff_forall _).mp hempty)
  | renameWant r =>
    rw [hph] at h
    dsimp only at h
    split_ifs at h
    cases h
    exact .silent
  | rename r stage =>
    rw [hph] at h hok
    exact advanceRename_change hok h

/-- Thread `i` goes on to a phase that holds no lock it did not hold or that was not free, and knows
what it should there. -/
structure NextPhase (s : State n) (i : Fin n) (s' : State n) (ph : Phase) : Prop where
  phase_eq : s'.phase = Function.update s.phase i ph
  locks : ∀ d ∈ ph.holds, d ∈ (s.phase i).holds ∨ s.free d = true
  rename : ph.holdsRename = true → (s.phase i).holdsRename = true ∨ s.renameFree = true
  ok : ph.Ok s'.fs

theorem next_idle {result : Except Errno Unit}
    (h : s'.phase = Function.update s.phase i (.idle result)) : ∃ ph, NextPhase s i s' ph :=
  ⟨.idle result, h, fun _ hd => absurd hd List.not_mem_nil, fun hr => (by cases hr), trivial⟩

theorem next_goto {ph ph' : Phase} (hph : s.phase i = ph) (hlocks : ∀ d ∈ ph'.holds, d ∈ ph.holds)
    (hrename : ph'.holdsRename = true → ph.holdsRename = true) (hok : ph'.Ok s.fs) :
    ∃ ph'', NextPhase s i (s.goto i ph') ph'' := by
  subst hph
  exact ⟨ph', rfl, fun d hd => Or.inl (hlocks d hd), fun hr => Or.inl (hrename hr), hok⟩

theorem next_acquire {dir : ℕ} {ph ph' : Phase} (hph : s.phase i = ph)
    (h : s.acquire i dir ph' = some s') (hlocks : ∀ d ∈ ph'.holds, d = dir ∨ d ∈ ph.holds)
    (hrename : ph'.holdsRename = true → ph.holdsRename = true) (hok : ph'.Ok s.fs) :
    ∃ ph'', NextPhase s i s' ph'' := by
  obtain ⟨hfree, rfl⟩ := acquire_eq h
  subst hph
  refine ⟨ph', rfl, fun d hd => ?_, fun hr => Or.inl (hrename hr), hok⟩
  rcases hlocks d hd with rfl | hheld
  · exact Or.inr hfree
  · exact Or.inl hheld

theorem commit_phase {r : Rename} {source : ℕ} {replaced : Option ℕ} :
    ∃ result, (s.commit i r source replaced).phase = Function.update s.phase i (.idle result) := by
  unfold State.commit
  split
  · exact ⟨_, rfl⟩
  · exact ⟨_, rfl⟩

/-- One step along a path. -/
theorem OnPath.up {start pos goal p : ℕ} (h : OnPath fs start pos goal) (hne : pos ≠ goal)
    (hup : fs.up pos = some p) : OnPath fs start p goal := by
  intro hwithin
  obtain ⟨hstart, hgoal⟩ := h hwithin
  obtain ⟨p', hp', hrest⟩ := hgoal.up_of_ne hne
  obtain rfl : p = p' := Option.some.inj (hup.symm.trans hp')
  exact ⟨hstart.trans (Within.parent hup), hrest⟩

/-- A walk that ended has not missed its goal. -/
theorem OnPath.ended {start pos goal : ℕ} (h : OnPath fs start pos goal) (hne : pos ≠ goal)
    (hup : fs.up pos = none) : ¬Within fs.up start goal := by
  intro hwithin
  obtain ⟨p, hp, -⟩ := (h hwithin).2.up_of_ne hne
  rw [hup] at hp
  cases hp

theorem onPath_start (fs : RamFs) (start goal : ℕ) : OnPath fs start start goal :=
  fun hwithin => ⟨Within.refl start, hwithin⟩

/-- A step of a walk: it is found, it ends, or it goes on to the parent. -/
theorem next_walk {pos goal : ℕ} {found ended : State n} {next : ℕ → Stage} {r : Rename}
    (hfound : pos = goal → ∃ ph, NextPhase s i found ph)
    (hended : pos ≠ goal → s.fs.up pos = none → ∃ ph, NextPhase s i ended ph)
    (hnext : ∀ p, pos ≠ goal → s.fs.up pos = some p →
      ∃ ph, NextPhase s i (s.goto i (.rename r (next p))) ph) :
    ∃ ph, NextPhase s i (s.walk i pos goal found ended next r) ph := by
  unfold State.walk
  split_ifs with heq
  · exact hfound heq
  · split
    · rename_i hup
      exact hended heq hup
    · rename_i p hup
      exact hnext p heq hup

section Stages

variable {r : Rename}

theorem entered_phase (hph : s.phase i = .rename r .entered)
    (hok : (Phase.rename r .entered).Ok s.fs)
    (h : s.advanceRename i r .entered = some s') : ∃ ph, NextPhase s i s' ph := by
  obtain ⟨hdirs, -, -⟩ := hok
  simp only [State.advanceRename] at h
  split_ifs at h with hsame hdead
  · cases h
    exact next_goto hph (fun _ hd => hd) (fun _ => rfl) ⟨hdirs, fun hm => (by cases hm), trivial⟩
  · cases h
    exact next_idle rfl
  · cases h
    exact next_goto hph (fun _ hd => hd) (fun _ => rfl) ⟨hdirs, fun _ => hsame, trivial⟩

theorem lookupLocked_phase (hph : s.phase i = .rename r .lookupLocked)
    (hok : (Phase.rename r .lookupLocked).Ok s.fs)
    (h : s.advanceRename i r .lookupLocked = some s') : ∃ ph, NextPhase s i s' ph := by
  obtain ⟨hdirs, hmoves, -⟩ := hok
  simp only [State.advanceRename] at h
  split at h
  · cases h
    exact next_idle rfl
  · rename_i source hsource
    have hentry := RamFs.entry_of_lookup hsource
    split_ifs at h with hdir
    · cases h
      refine next_goto hph (fun _ hd => absurd hd List.not_mem_nil) (fun _ => rfl)
        ⟨hdirs, hmoves, RamFs.present_of_isDir hdirs.2, fun m hm _ hne => ?_, onPath_start _ _ _⟩
      exact absurd (hentry.symm.trans hm) hne
    · cases h
      refine next_goto hph (fun _ hd => absurd hd List.not_mem_nil) (fun _ => rfl)
        ⟨hdirs, hmoves, RamFs.present_of_isDir hdirs.2, fun m hm hmdir _ => ?_, onPath_start _ _ _,
          fun _ => rfl⟩
      obtain rfl : source = m := Option.some.inj (hentry.symm.trans hm)
      exact absurd hmdir hdir

theorem walkMoved_phase {moved pos : ℕ} (hph : s.phase i = .rename r (.walkMoved moved pos))
    (hok : (Phase.rename r (.walkMoved moved pos)).Ok s.fs)
    (h : s.advanceRename i r (.walkMoved moved pos) = some s') : ∃ ph, NextPhase s i s' ph := by
  obtain ⟨hdirs, hmoves, -, hloop, hpath⟩ := hok
  cases h
  refine next_walk (fun _ => next_idle rfl) (fun hne hup => ?_) fun p hne hup => ?_
  · refine next_goto hph (fun _ hd => hd)
      (fun _ => rfl) ⟨hdirs, hmoves, RamFs.present_of_isDir hdirs.2,
      fun m hm hdir _ => ?_, onPath_start _ _ _, fun _ => rfl⟩
    by_cases heq : m = moved
    · rw [heq]
      exact hpath.ended hne hup
    · exact hloop m hm hdir fun hsome => heq (Option.some.inj hsome).symm
  · exact next_goto hph (fun _ hd => hd) (fun _ => rfl) ⟨hdirs, hmoves,
      (RamFs.up_eq_some.mp hup).2, hloop, hpath.up hne hup⟩

theorem walkTarget_phase {pos : ℕ} (hph : s.phase i = .rename r (.walkTarget pos))
    (hok : (Phase.rename r (.walkTarget pos)).Ok s.fs) (htree : s.fs.TreeOk)
    (h : s.advanceRename i r (.walkTarget pos) = some s') : ∃ ph, NextPhase s i s' ph := by
  obtain ⟨hdirs, hmoves, -, hloop, hpath, hback⟩ := hok
  cases h
  refine next_walk (fun heq => ?_) (fun hne hup => ?_) fun p hne hup => ?_
  · refine next_goto hph (fun _ hd => hd) (fun _ => rfl) ⟨hdirs, hmoves, hloop,
      fun hne hwithin => hne ?_⟩
    rw [← heq]
    exact hback (by rw [heq]; exact hwithin)
  · exact next_goto hph (fun _ hd => hd)
      (fun _ => rfl) ⟨hdirs, hmoves, RamFs.present_of_isDir hdirs.1, hloop,
      hpath.ended hne hup, onPath_start _ _ _⟩
  · refine next_goto hph (fun _ hd => hd) (fun _ => rfl) ⟨hdirs, hmoves,
      (RamFs.up_eq_some.mp hup).2, hloop, hpath.up hne hup, fun hwithin => ?_⟩
    have heq := hback ((Within.parent hup).trans hwithin)
    rw [heq] at hup
    exact absurd hwithin (htree.grounded.not_within_child hup)

theorem walkSource_phase {pos : ℕ} (hph : s.phase i = .rename r (.walkSource pos))
    (hok : (Phase.rename r (.walkSource pos)).Ok s.fs)
    (h : s.advanceRename i r (.walkSource pos) = some s') : ∃ ph, NextPhase s i s' ph := by
  obtain ⟨hdirs, hmoves, -, hloop, hnot, hpath⟩ := hok
  cases h
  refine next_walk (fun heq => ?_) (fun hne hup => ?_) fun p hne hup => ?_
  · exact next_goto hph (fun _ hd => hd) (fun _ => rfl) ⟨hdirs, hmoves, hloop, fun _ => hnot⟩
  · refine next_goto hph (fun _ hd => hd) (fun _ => rfl) ⟨hdirs, hmoves, hloop, fun _ => ?_⟩
    by_cases hlt : r.self < r.target
    · simp only [hlt, decide_true, Stage.first, Stage.second, if_true]
      exact hpath.ended hne hup
    · simp only [hlt, decide_false, Stage.first, Stage.second, Bool.false_eq_true, if_false]
      exact hnot
  · exact next_goto hph (fun _ hd => hd) (fun _ => rfl) ⟨hdirs, hmoves,
      (RamFs.up_eq_some.mp hup).2, hloop, hnot, hpath.up hne hup⟩

theorem bothLocked_phase (hph : s.phase i = .rename r .bothLocked)
    (hok : (Phase.rename r .bothLocked).Ok s.fs)
    (h : s.advanceRename i r .bothLocked = some s') : ∃ ph, NextPhase s i s' ph := by
  obtain ⟨hdirs, hmoves, hstage⟩ := hok
  simp only [State.advanceRename] at h
  split at h
  · cases h
    exact next_idle rfl
  · cases h
    exact next_idle commit_phase.choose_spec
  · rename_i source existing hsource
    cases h
    obtain ⟨hentry, ⟨hnone, -⟩ | ⟨-, hnone, -⟩ | ⟨e, he, hexisting, hdir, hne⟩⟩ :=
      renameSource_cases hsource
    · cases hnone
    · cases hnone
    · cases he
      exact next_goto hph (fun _ hd => hd) (fun _ => rfl)
        ⟨hdirs, hmoves, hstage, hentry, hexisting, hdir, hne⟩

end Stages

/-- A `rename` knows at each stage what its last step established. -/
theorem advanceRename_phase {r : Rename} {stage : Stage} (hph : s.phase i = .rename r stage)
    (hok : (Phase.rename r stage).Ok s.fs) (htree : s.fs.TreeOk)
    (h : s.advanceRename i r stage = some s') : ∃ ph, NextPhase s i s' ph := by
  have ⟨hdirs, hmoves, hstage⟩ := hok
  cases stage with
  | entered => exact entered_phase hph hok h
  | sameWant =>
    exact next_acquire hph h (fun d hd => Or.inl (List.mem_singleton.mp hd)) (fun _ => rfl)
      ⟨hdirs, fun hm => (by cases hm), trivial⟩
  | sameLocked =>
    cases h
    exact next_idle rfl
  | lookupWant =>
    exact next_acquire hph h (fun d hd => Or.inl (List.mem_singleton.mp hd)) (fun _ => rfl)
      ⟨hdirs, hmoves, trivial⟩
  | lookupLocked => exact lookupLocked_phase hph hok h
  | walkMoved moved pos => exact walkMoved_phase hph hok h
  | walkTarget pos => exact walkTarget_phase hph hok htree h
  | walkSource pos => exact walkSource_phase hph hok h
  | lockFirst sourceFirst =>
    obtain ⟨hloop, hnot⟩ := hstage
    simp only [State.advanceRename] at h
    split_ifs at h with hsame
    · refine next_acquire hph h (fun d hd => ?_) (fun _ => rfl) ⟨hdirs, hmoves, hloop⟩
      simpa [Phase.holds, Stage.holds, ← hsame] using hd
    · exact next_acquire hph h (fun d hd => Or.inl (List.mem_singleton.mp hd)) (fun _ => rfl)
        ⟨hdirs, hmoves, hloop, hnot hsame⟩
  | lockSecond sourceFirst =>
    obtain ⟨hloop, -⟩ := hstage
    refine next_acquire hph h (fun d hd => ?_) (fun _ => rfl) ⟨hdirs, hmoves, hloop⟩
    cases sourceFirst <;>
      simpa [Phase.holds, Stage.holds, Stage.first, Stage.second, or_comm] using hd
  | bothLocked => exact bothLocked_phase hph hok h
  | wantExisting source existing =>
    refine next_acquire hph h (fun d hd => ?_) (fun _ => rfl) ⟨hdirs, hmoves, hstage⟩
    simp only [Phase.holds, Stage.holds, List.mem_cons, List.not_mem_nil, or_false] at hd ⊢
    tauto
  | allLocked source existing =>
    cases h
    exact next_idle commit_phase.choose_spec

/-- A thread knows at each phase what its last step established. -/
theorem advance_phase (hok : (s.phase i).Ok s.fs) (htree : s.fs.TreeOk)
    (h : s.advance i = some s') : ∃ ph, NextPhase s i s' ph := by
  unfold State.advance at h
  cases hph : s.phase i with
  | idle result =>
    rw [hph] at h
    cases h
  | want dir op =>
    rw [hph] at h hok
    exact next_acquire hph h (fun d hd => Or.inl (List.mem_singleton.mp hd)) (fun hr => hr) hok
  | locked dir op =>
    rw [hph] at h
    cases h
    cases op with
    | lookup name => exact next_idle rfl
    | create name kind =>
      simp only [State.runEntryOp]
      split <;> exact next_idle rfl
    | unlink name =>
      simp only [State.runEntryOp]
      split <;> exact next_idle rfl
  | rmdirWant dir name =>
    rw [hph] at h hok
    exact next_acquire hph h (fun d hd => Or.inl (List.mem_singleton.mp hd)) (fun hr => hr) hok
  | rmdirLocked dir name =>
    rw [hph] at h
    dsimp only at h
    split at h
    · cases h
      exact next_idle rfl
    · rename_i child hchild
      cases h
      unfold RamFs.rmdirChild at hchild
      split at hchild
      · cases hchild
      · rename_i hentry
        split_ifs at hchild with hdir
        cases hchild
        exact next_goto hph (fun _ hd => hd) (fun hr => hr) ⟨hdir, hentry⟩
  | rmdirWantChild dir name child =>
    rw [hph] at h hok
    refine next_acquire hph h (fun d hd => ?_) (fun hr => hr) hok
    simpa [Phase.holds, or_comm] using hd
  | rmdirBoth dir name child =>
    rw [hph] at h
    dsimp only at h
    split at h <;> cases h <;> exact next_idle rfl
  | renameWant r =>
    rw [hph] at h hok
    dsimp only at h
    split_ifs at h with hfree
    cases h
    exact ⟨.rename r .entered, rfl, fun _ hd => absurd hd List.not_mem_nil, fun _ => Or.inr hfree,
      hok, fun hm => (by cases hm), trivial⟩
  | rename r stage =>
    rw [hph] at h hok
    exact advanceRename_phase hph hok htree h

/-! ## The invariant -/

/-- The tree is intact, every thread knows what its phase says, and locks exclude each other. -/
structure Inv (s : State n) : Prop where
  tree : s.fs.TreeOk
  ok : ∀ i, (s.phase i).Ok s.fs
  exclusive : ∀ i j d, i ≠ j → d ∈ (s.phase i).holds → d ∉ (s.phase j).holds
  oneRename : ∀ i j, i ≠ j → (s.phase i).holdsRename = true → (s.phase j).holdsRename = false

theorem Inv.initial (h : s.Initial) : Inv s := by
  obtain ⟨⟨limit, hfs⟩, hidle, -⟩ := h
  refine ⟨hfs ▸ RamFs.treeOk_withLimit limit, fun i => ?_, fun i j d _ hd => ?_, fun i j _ hr => ?_⟩
  · rw [hidle]
    trivial
  · rw [hidle] at hd
    exact absurd hd List.not_mem_nil
  · rw [hidle] at hr
    cases hr

/-- One thread moves on while the others keep what they know. -/
theorem Inv.next {ph : Phase} (h : Inv s) (htree : s'.fs.TreeOk) (hnext : NextPhase s i s' ph)
    (hframe : ∀ j, j ≠ i → (s.phase j).Ok s'.fs) : Inv s' := by
  obtain ⟨hphase, hlocks, hrename, hok⟩ := hnext
  have hfree : ∀ j d, j ≠ i → d ∈ ph.holds → d ∉ (s.phase j).holds := by
    intro j d hj hd
    rcases hlocks d hd with hheld | hfree
    · exact h.exclusive i j d hj.symm hheld
    · exact of_decide_eq_true hfree j
  have hsole : ∀ j, j ≠ i → ph.holdsRename = true → (s.phase j).holdsRename = false := by
    intro j hj hr
    rcases hrename hr with hheld | hfree
    · exact h.oneRename i j hj.symm hheld
    · exact of_decide_eq_true hfree j
  refine ⟨htree, fun j => ?_, fun j k d hjk hd => ?_, fun j k hjk hr => ?_⟩
  · rw [hphase]
    by_cases hj : j = i
    · rwa [hj, Function.update_self]
    · rw [Function.update_of_ne hj]
      exact hframe j hj
  · rw [hphase] at hd ⊢
    by_cases hj : j = i
    · subst hj
      rw [Function.update_self] at hd
      rw [Function.update_of_ne hjk.symm]
      exact hfree k d hjk.symm hd
    · rw [Function.update_of_ne hj] at hd
      by_cases hk : k = i
      · subst hk
        rw [Function.update_self]
        exact fun hd' => hfree j d hj hd' hd
      · rw [Function.update_of_ne hk]
        exact h.exclusive j k d hjk hd
  · rw [hphase] at hr ⊢
    by_cases hj : j = i
    · subst hj
      rw [Function.update_self] at hr
      rw [Function.update_of_ne hjk.symm]
      exact hsole k hjk.symm hr
    · rw [Function.update_of_ne hj] at hr
      by_cases hk : k = i
      · subst hk
        rw [Function.update_self]
        by_contra hne
        have hfalse := hsole j hj (by simpa using hne)
        rw [hr] at hfalse
        cases hfalse
      · rw [Function.update_of_ne hk]
        exact h.oneRename j k hjk hr

theorem Inv.advance (h : Inv s) (hstep : s.advance i = some s') : Inv s' := by
  have hchange := advance_change (h.ok i) hstep
  obtain ⟨ph, hnext⟩ := advance_phase (h.ok i) h.tree hstep
  refine h.next (hchange.treeOk (h.ok i) h.tree) hnext fun j hj => ?_
  exact (h.ok j).frame h.tree (hchange.effect (h.ok i) h.tree)
    (fun d hd => h.exclusive j i d hj hd) (h.oneRename j i hj)

/-- A call starts: it holds no lock yet, nor the rename lock. -/
theorem start_phase {call : Call} (hdir : s.fs.isDir call.receiver = true) :
    (s.start i call).fs = s.fs ∧ (s.start i call).removed = s.removed ∧
      ∃ ph, ph.holdsRename = false ∧ NextPhase s i (s.start i call) ph := by
  have hret : ∀ result, ∃ ph, ph.holdsRename = false ∧ NextPhase s i (s.ret i result) ph :=
    fun result => ⟨.idle result, rfl, rfl, fun _ hd => absurd hd List.not_mem_nil,
      fun hr => (by cases hr), trivial⟩
  have hwant : ∀ ph : Phase, ph.holds = [] → ph.holdsRename = false → ph.Ok s.fs →
      ∃ ph', ph'.holdsRename = false ∧ NextPhase s i (s.goto i ph) ph' := by
    intro ph hholds hrename hok
    refine ⟨ph, hrename, rfl, fun d hd => ?_, fun hr => ?_, hok⟩
    · rw [hholds] at hd
      exact absurd hd List.not_mem_nil
    · rw [hrename] at hr
      cases hr
  cases call with
  | entryOp dir op =>
    cases op with
    | lookup name => exact ⟨rfl, rfl, hwant _ rfl rfl hdir⟩
    | create name kind =>
      simp only [State.start]
      split
      · exact ⟨rfl, rfl, hret _⟩
      · exact ⟨rfl, rfl, hwant _ rfl rfl hdir⟩
    | unlink name => exact ⟨rfl, rfl, hwant _ rfl rfl hdir⟩
  | rmdir dir name => exact ⟨rfl, rfl, hwant _ rfl rfl hdir⟩
  | rename r =>
    simp only [State.start]
    split
    · exact ⟨rfl, rfl, hret _⟩
    · split_ifs with htarget
      · exact ⟨rfl, rfl, hwant _ rfl rfl ⟨hdir, htarget⟩⟩
      · exact ⟨rfl, rfl, hret _⟩

theorem Inv.call {call : Call} (h : Inv s) (hdir : s.fs.isDir call.receiver = true) :
    Inv (s.start i call) := by
  obtain ⟨hfs, -, ph, -, hnext⟩ := start_phase (i := i) hdir
  refine h.next (hfs ▸ h.tree) hnext fun j _ => ?_
  rw [hfs]
  exact h.ok j

theorem Inv.drop {ino : ℕ} (h : Inv s) (hroot : ino ≠ RamFs.rootIno)
    (hunlisted : ∀ d name, s.fs.entry d name ≠ some ino) (huses : ∀ j, ino ∉ (s.phase j).uses) :
    Inv { s with fs := s.fs.drop ino } :=
  ⟨h.tree.drop hroot hunlisted, fun j => (h.ok j).drop h.tree (huses j), h.exclusive, h.oneRename⟩

/-- Every step keeps the invariant. -/
theorem Inv.step {op : Op n} (h : Inv s) (hstep : s.Step op s') : Inv s' := by
  cases op with
  | call i call =>
    obtain ⟨-, hdir, rfl⟩ := hstep
    exact h.call hdir
  | advance i => exact h.advance hstep
  | drop ino =>
    obtain ⟨hroot, hunlisted, huses, rfl⟩ := hstep
    exact h.drop hroot hunlisted huses

end Step

end Threads

end SaeOS.Fs
