import SaeOS.Fs.RamFsInvariant

/-!
# Lock order of ramfs threads

The documented order is an ancestor's entry map before a descendant's. A `rename` that replaces a
directory locks the replaced directory last. If that directory is an ancestor of the directory the
source is in, as in renaming `/a/b/c` to `/a`, the order is broken and a `rmdir` on the way down
closes a circle of waiting threads. In every run in which no `rename` does this, threads wait in
lock order and never in a circle.
-/

namespace SaeOS.Fs

open RamFs (Rename)
open Forest (Within)

namespace Threads

variable {n : ℕ} {s s' : State n} {i : Fin n}

/-- `r` is about to replace the directory `existing` by a directory. -/
def Replaces (fs : RamFs) (r : Rename) (existing : ℕ) : Prop :=
  ∃ source, fs.entry r.self r.old = some source ∧ fs.isDir source = true ∧
    fs.entry r.target r.new = some existing ∧ fs.isDir existing = true

/-- A `rename` that has locked its two directories does not find a proper ancestor of its source's
directory in the place of its target. -/
def ReplacesNoAncestor (s : State n) : Op n → Prop
  | .advance i => ∀ r existing, s.phase i = .rename r .bothLocked → Replaces s.fs r existing →
      existing ≠ r.self → ¬Within s.fs.up r.self existing
  | _ => True

/-- Some threads wait for each other's entry maps in a circle. -/
def CircularWait (s : State n) : Prop :=
  LockOrder.CircularWait (fun i d => d ∈ (s.phase i).holds) fun i => (s.phase i).waits

/-- No thread waits for the entry map of a directory that it has locked or that is above one. -/
def InLockOrder (s : State n) : Prop :=
  ∀ i d d', d ∈ (s.phase i).holds → (s.phase i).waits = some d' → ¬Within s.fs.up d d'

/-! ## Waiting for the replaced directory -/

/-- A `rename` that waits for the directory it replaces has no source below it. -/
def ExistingOk (s : State n) : Prop :=
  ∀ i r source existing, s.phase i = .rename r (.wantExisting source existing) →
    ¬Within s.fs.up r.self existing

theorem goto_phase {ph : Phase} : (s.goto i ph).phase i = ph :=
  Function.update_self ..

/-- A `rename` starts to wait for a replaced directory only after it read its entries under both
locks. -/
theorem wantExisting_of_advanceRename {r r' : Rename} {stage : Stage} {source existing : ℕ}
    (h : s.advanceRename i r stage = some s')
    (hph : s'.phase i = .rename r' (.wantExisting source existing)) :
    stage = .bothLocked ∧ r' = r ∧ s'.fs = s.fs ∧
      s.fs.renameSource r = .ok (source, some existing) := by
  -- every other step goes to another stage or returns
  have hgoto : ∀ ph, s' = s.goto i ph → ph = .rename r' (.wantExisting source existing) := by
    rintro ph rfl
    exact goto_phase.symm.trans hph
  cases stage with
  | entered =>
    simp only [State.advanceRename] at h
    split_ifs at h <;> cases h <;> cases hgoto _ rfl
  | sameWant | lookupWant | lockSecond sourceFirst | wantExisting source' existing' =>
    cases hgoto _ (acquire_eq h).2
  | sameLocked =>
    cases h
    cases hgoto _ rfl
  | lookupLocked =>
    simp only [State.advanceRename] at h
    split at h
    · cases h
      cases hgoto _ rfl
    · split_ifs at h <;> cases h <;> cases hgoto _ rfl
  | walkMoved moved pos | walkTarget pos | walkSource pos =>
    cases h
    unfold State.walk at hgoto
    split_ifs at hgoto
    · cases hgoto _ rfl
    · split at hgoto <;> cases hgoto _ rfl
  | lockFirst sourceFirst =>
    simp only [State.advanceRename] at h
    split_ifs at h <;> cases hgoto _ (acquire_eq h).2
  | bothLocked =>
    simp only [State.advanceRename] at h
    split at h
    · cases h
      cases hgoto _ rfl
    · cases h
      obtain ⟨result, hresult⟩ := commit_phase (s := s) (i := i) (r := r)
      rw [hresult, Function.update_self] at hph
      cases hph
    · rename_i source' existing' hsource
      cases h
      cases hgoto _ rfl
      exact ⟨rfl, rfl, rfl, hsource⟩
  | allLocked source' existing' =>
    cases h
    obtain ⟨result, hresult⟩ := commit_phase (s := s) (i := i) (r := r)
    rw [hresult, Function.update_self] at hph
    cases hph

theorem wantExisting_of_advance {r : Rename} {source existing : ℕ} (h : s.advance i = some s')
    (hph : s'.phase i = .rename r (.wantExisting source existing)) :
    s.phase i = .rename r .bothLocked ∧ s'.fs = s.fs ∧
      s.fs.renameSource r = .ok (source, some existing) := by
  have hgoto : ∀ ph, s' = s.goto i ph → ph = .rename r (.wantExisting source existing) := by
    rintro ph rfl
    exact goto_phase.symm.trans hph
  have hidle : ∀ result, s'.phase = Function.update s.phase i (.idle result) → False := by
    intro result hresult
    rw [hresult, Function.update_self] at hph
    cases hph
  unfold State.advance at h
  cases hpre : s.phase i with
  | idle result =>
    rw [hpre] at h
    cases h
  | want dir op | rmdirWant dir name | rmdirWantChild dir name child =>
    rw [hpre] at h
    cases hgoto _ (acquire_eq h).2
  | locked dir op =>
    rw [hpre] at h
    cases h
    refine absurd ?_ id
    cases op with
    | lookup name => exact hidle _ rfl
    | create name kind =>
      simp only [State.runEntryOp] at hidle
      split at hidle <;> exact hidle _ rfl
    | unlink name =>
      simp only [State.runEntryOp] at hidle
      split at hidle <;> exact hidle _ rfl
  | rmdirLocked dir name =>
    rw [hpre] at h
    dsimp only at h
    split at h <;> cases h <;> cases hgoto _ rfl
  | rmdirBoth dir name child =>
    rw [hpre] at h
    dsimp only at h
    split at h <;> cases h <;> exact absurd (hidle _ rfl) id
  | renameWant r' =>
    rw [hpre] at h
    dsimp only at h
    split_ifs at h
    cases h
    cases hgoto _ rfl
  | rename r' stage =>
    rw [hpre] at h
    obtain ⟨rfl, rfl, hfs, hsource⟩ := wantExisting_of_advanceRename h hph
    exact ⟨rfl, hfs, hsource⟩

/-- The source of a `rename` is a directory when it replaces one. -/
theorem replaces_of_renameSource {fs : RamFs} {r : Rename} {source existing : ℕ}
    (h : fs.renameSource r = .ok (source, some existing)) : Replaces fs r existing := by
  unfold RamFs.renameSource at h
  split at h
  next => cases h
  next source' hsource =>
    split at h
    next => cases h
    next existing' hexisting =>
      split at h
      next hdir hdir' =>
        split_ifs at h
        cases h
        exact ⟨source, hsource, hdir, hexisting, hdir'⟩
      next => cases h
      next => cases h
      next => cases h

theorem ExistingOk.advance (h : ExistingOk s) (hinv : Inv s)
    (hguard : ReplacesNoAncestor s (.advance i)) (hstep : s.advance i = some s') :
    ExistingOk s' := by
  intro j r source existing hph
  by_cases hj : j = i
  · subst hj
    obtain ⟨hpre, hfs, hsource⟩ := wantExisting_of_advance hstep hph
    rw [hfs]
    obtain ⟨-, ⟨hnone, -⟩ | ⟨-, hnone, -⟩ | ⟨e, he, -, -, hne⟩⟩ := renameSource_cases hsource
    · cases hnone
    · cases hnone
    · cases he
      exact hguard r existing hpre (replaces_of_renameSource hsource) hne
  · obtain ⟨ph, hnext⟩ := advance_phase (hinv.ok i) hinv.tree hstep
    rw [hnext.phase_eq, Function.update_of_ne hj] at hph
    have hok := hinv.ok j
    have hrename := hinv.oneRename j i hj
    rw [hph] at hok hrename
    have heffect := (advance_change (hinv.ok i) hstep).effect (hinv.ok i) hinv.tree
    intro hwithin
    exact h j r source existing hph
      ((heffect.quiet (hrename rfl)).within (RamFs.present_of_isDir hok.1.1) hwithin)

theorem ExistingOk.step {op : Op n} (h : ExistingOk s) (hinv : Inv s)
    (hstep : Run.Guarded ReplacesNoAncestor State.Step s op s') : ExistingOk s' := by
  obtain ⟨hguard, hstep⟩ := hstep
  cases op with
  | call i call =>
    obtain ⟨-, hdir, rfl⟩ := hstep
    obtain ⟨hfs, -, ph, hnone, hnext⟩ := start_phase (i := i) hdir
    intro j r source existing hph
    rw [hfs]
    rw [hnext.phase_eq] at hph
    by_cases hj : j = i
    · rw [hj, Function.update_self] at hph
      rw [hph] at hnone
      cases hnone
    · rw [Function.update_of_ne hj] at hph
      exact h j r source existing hph
  | advance i => exact h.advance hinv hguard hstep
  | drop ino =>
    obtain ⟨-, -, -, rfl⟩ := hstep
    intro j r source existing hph hwithin
    have hok := hinv.ok j
    rw [show s.phase j = _ from hph] at hok
    exact h j r source existing hph
      ((quiet_drop s.fs ino).within (RamFs.present_of_isDir hok.1.1) hwithin)

/-! ## No circular wait -/

/-- A thread that holds an entry map and waits for another is a `rmdir` that waits for a child of
the directory it has locked, or the one `rename`. -/
theorem waits_cases (hinv : Inv s) {d d' : ℕ} (hd : d ∈ (s.phase i).holds)
    (hd' : (s.phase i).waits = some d') :
    s.fs.up d' = some d ∨ (s.phase i).holdsRename = true := by
  have hok := hinv.ok i
  cases hph : s.phase i with
  | idle result | want dir op | rmdirWant dir name | renameWant r =>
    rw [hph] at hd
    exact absurd hd List.not_mem_nil
  | locked dir op | rmdirLocked dir name | rmdirBoth dir name child =>
    rw [hph] at hd'
    cases hd'
  | rmdirWantChild dir name child =>
    rw [hph] at hd hd' hok
    cases hd'
    rw [List.mem_singleton.mp hd]
    exact Or.inl (hinv.tree.up_of_entry hok.2 hok.1)
  | rename r stage => exact Or.inr rfl

/-- No lock that a waiting `rename` holds is within the directory it waits for. -/
theorem rename_in_order (hinv : Inv s) (hexisting : ExistingOk s) {r : Rename} {stage : Stage}
    (hph : s.phase i = .rename r stage) {d d' : ℕ} (hd : d ∈ stage.holds r)
    (hd' : stage.waits r = some d') : ¬Within s.fs.up d d' := by
  have hok := hinv.ok i
  rw [hph] at hok
  obtain ⟨-, -, hstage⟩ := hok
  cases stage with
  | entered | sameWant | lookupWant | walkMoved | walkTarget | walkSource | lockFirst =>
    exact absurd hd List.not_mem_nil
  | sameLocked | lookupLocked | bothLocked | allLocked => cases hd'
  | lockSecond sourceFirst =>
    cases hd'
    rw [List.mem_singleton.mp hd]
    exact hstage.2
  | wantExisting source existing =>
    obtain rfl : existing = d' := Option.some.inj hd'
    obtain ⟨-, -, hentry, hdir, -⟩ := hstage
    simp only [Stage.holds, List.mem_cons, List.not_mem_nil, or_false] at hd
    rcases hd with rfl | rfl
    · exact hexisting i r source existing hph
    · exact hinv.tree.grounded.not_within_child (hinv.tree.up_of_entry hentry hdir)

theorem inLockOrder (hinv : Inv s) (hexisting : ExistingOk s) : InLockOrder s := by
  intro i d d' hd hd'
  rcases waits_cases hinv hd hd' with hup | hrename
  · exact hinv.tree.grounded.not_within_child hup
  · cases hph : s.phase i with
    | rename r stage =>
      rw [hph] at hd hd'
      exact rename_in_order hinv hexisting hph hd hd'
    | idle | want | locked | rmdirWant | rmdirLocked | rmdirWantChild | rmdirBoth | renameWant =>
      rw [hph] at hrename
      cases hrename

/-- In lock order no threads wait in a circle. -/
theorem not_circularWait_of_order (hinv : Inv s) (horder : InLockOrder s) : ¬CircularWait s := by
  by_cases hwaiting : ∃ i w, (s.phase i).holdsRename = true ∧ (s.phase i).waits = some w
  · -- the one `rename` waits for `w`; every other edge of the lock graph goes to a child
    obtain ⟨i, w, hrename, hw⟩ := hwaiting
    refine LockOrder.not_circularWait (fun j d d' hd hd' => ?_)
      (LockOrder.no_cycle hinv.tree.grounded fun d (hd : d ∈ (s.phase i).holds) =>
        horder i d w hd hw)
    rcases waits_cases hinv hd hd' with hup | hrename'
    · exact Or.inl hup
    · have hij : j = i := by
        by_contra hne
        rw [hinv.oneRename j i hne hrename'] at hrename
        cases hrename
      subst hij
      exact Or.inr ⟨hd, Option.some.inj (hd'.symm.trans hw)⟩
  · refine LockOrder.not_circularWait (fun j d d' hd hd' => ?_)
      (LockOrder.no_cycle (w := RamFs.rootIno) hinv.tree.grounded fun d (hd : False) => hd.elim)
    rcases waits_cases hinv hd hd' with hup | hrename
    · exact Or.inl hup
    · exact absurd ⟨j, d', hrename, hd'⟩ hwaiting

/-- In every run in which no `rename` replaces a proper ancestor of its source's directory, threads
wait in lock order and never in a circle. -/
theorem reachable_not_circularWait
    (h : Run.Reachable State.Initial (Run.Guarded ReplacesNoAncestor State.Step) s) :
    InLockOrder s ∧ ¬CircularWait s := by
  have hboth : Inv s ∧ ExistingOk s := by
    refine h.invariant (P := fun s => Inv s ∧ ExistingOk s) (fun s hinit => ?_)
      fun s op s' hpre hstep => ⟨hpre.1.step hstep.2, hpre.2.step hpre.1 hstep⟩
    refine ⟨Inv.initial hinit, fun i r source existing hph => ?_⟩
    rw [hinit.2.1 i] at hph
    cases hph
  have horder := inLockOrder hboth.1 hboth.2
  exact ⟨horder, not_circularWait_of_order hboth.1 horder⟩

/-! ## Two runs -/

/-- Only renames out of the root go past their two locks. -/
def fromRoot (s : State n) : Op n → Bool
  | .advance i =>
    match s.phase i with
    | .rename r .bothLocked => r.self == RamFs.rootIno
    | _ => true
  | _ => true

/-- The root has no ancestor to replace. -/
theorem fromRoot_sound (s : State n) (op : Op n) (h : Run.Reachable State.Initial State.Step s)
    (hcheck : fromRoot s op = true) : ReplacesNoAncestor s op := by
  cases op with
  | advance i =>
    intro r existing hph _ hne hwithin
    simp only [fromRoot, hph, beq_iff_eq] at hcheck
    have hinv : Inv s :=
      h.invariant (fun _ hinit => Inv.initial hinit) fun _ _ _ hpre hstep => hpre.step hstep
    obtain ⟨p, hp, -⟩ := hwithin.up_of_ne hne.symm
    rw [RamFs.up_eq_some, hcheck, hinv.tree.root_parent] at hp
    cases hp.1
  | call i call => trivial
  | drop ino => trivial

/-- `/c` is renamed to `/a` while another thread creates `/a/b`: the rename waits for the entry map
of `/a`. -/
def renameWaits : State 2 :=
  State.runChecked fromRoot (State.fresh 2 0)
    (State.createOps 0 1 [97] .directory ++ State.createOps 0 1 [99] .directory ++
      .call 1 (.entryOp 2 (.create [98] .directory)) :: State.steps 1 1 ++
      .call 0 (.rename ⟨1, [99], 1, [97]⟩) :: State.steps 0 8)

theorem reachable_not_circularWait_renameWaits :
    (renameWaits.phase 0).waits = some 2 ∧ InLockOrder renameWaits ∧ ¬CircularWait renameWaits :=
  ⟨by decide +kernel, reachable_not_circularWait
    (State.reachable_runChecked fromRoot_sound (.start (State.initial_fresh 2 0)))⟩

/-- `/a/b/c` is renamed to `/a` while another thread removes `/a/b`. -/
def renameOntoAncestor : State 2 :=
  State.runChecked (fun _ _ => true) (State.fresh 2 0)
    (State.createOps 0 1 [97] .directory ++ State.createOps 0 2 [98] .directory ++ State.createOps 0 3 [99] .directory ++
      .call 0 (.rename ⟨3, [99], 1, [97]⟩) :: State.steps 0 11 ++
      .call 1 (.rmdir 2 [98]) :: State.steps 1 2 ++ State.steps 0 1)

/-- The rename holds `/` and `/a/b` and waits for `/a`; the `rmdir` holds `/a` and waits for
`/a/b`. -/
theorem circularWait_renameOntoAncestor : ¬∀ (n : ℕ) (s : State n),
    Run.Reachable State.Initial State.Step s → ¬CircularWait s := by
  intro hall
  have hreach : Run.Reachable State.Initial State.Step renameOntoAncestor :=
    (State.reachable_runChecked (fun _ _ _ _ => trivial)
      (.start (State.initial_fresh 2 0))).of_guarded
  have hrename : (renameOntoAncestor.phase 0).waits = some 2 ∧
      3 ∈ (renameOntoAncestor.phase 0).holds := by decide +kernel
  have hrmdir : (renameOntoAncestor.phase 1).waits = some 3 ∧
      2 ∈ (renameOntoAncestor.phase 1).holds := by decide +kernel
  refine hall 2 renameOntoAncestor hreach ⟨0, .tail (.single (b := 1) ?_) ?_⟩
  · exact ⟨2, hrename.1, hrmdir.2⟩
  · exact ⟨3, hrmdir.1, hrename.2⟩

end Threads

end SaeOS.Fs
