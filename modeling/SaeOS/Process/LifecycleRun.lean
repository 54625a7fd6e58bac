import SaeOS.Process.LifecycleSteps

/-!
# Runs of the waiting protocol

What holds in every state that processes forking, exiting and waiting for each other can reach, in
whatever order their sections are taken. A waiting parent is not forgotten, a wait fails only if there
is nobody to wait for, a status is returned once, and an address space that is released is nobody's.
-/

namespace SaeOS.Process

namespace Lifecycle

variable {sys sys' : Lifecycle} {id : ℕ} {t : Task} {action : Action}

/-! ## The invariant holds on every run -/

/-- Every section keeps the invariant. -/
theorem Inv.advance (h : Inv sys) (ht : sys.tasks id = some t) (hexited : t.exited = false)
    (hready : t.blockedOn = none) (hstep : sys.advance id t t.pc = some sys') : Inv sys' := by
  cases hpc : t.pc with
  | running =>
    rw [hpc] at hstep
    cases hstep
  | forking space =>
    rw [hpc] at hstep
    cases hstep
    exact h.spawnForked ht hready hexited hpc
  | waiting target =>
    rw [hpc] at hstep
    cases hstep
    exact h.waitEvent ht hready hexited hpc
  | rechecking target =>
    rw [hpc] at hstep
    cases hstep
    exact h.recheck ht hready hexited hpc
  | collecting target child =>
    rw [hpc] at hstep
    cases hstep
    exact h.collect ht hready hexited hpc
  | collected child status waiters =>
    rw [hpc] at hstep
    cases hstep
    exact h.removeWaiters ht hready hexited hpc
  | taking caller =>
    rw [hpc] at hstep
    cases hstep
    exact h.takeSpaces ht hready hexited hpc
  | releasing spaces caller =>
    rw [hpc] at hstep
    cases spaces with
    | nil =>
      cases hstep
      exact h.released ht hready hexited hpc
    | cons space spaces =>
      cases hstep
      exact h.releaseOne ht hready hexited hpc
  | reaperWaiting =>
    rw [hpc] at hstep
    cases hstep
    exact h.reaperWaiting ht hready hexited hpc
  | reaping =>
    rw [hpc] at hstep
    cases hstep
    exact h.reapOne ht hready hexited hpc
  | retiring task process =>
    rw [hpc] at hstep
    cases hstep
    exact h.retire ht hready hexited hpc
  | waking =>
    rw [hpc] at hstep
    cases hstep
    exact h.waking ht hready hexited hpc

theorem Inv.step {label : ℕ × Action} (h : Inv sys) (hstep : Step sys label sys') : Inv sys' := by
  cases hstep with
  | fork ht hexited hready hpc => exact h.registerSpace ht hready hexited hpc
  | wait ht hexited hready hpc => exact h.waitForChild ht hready hexited hpc _ _
  | exit ht hexited hready hpc hinit => exact h.exitCurrent ht hready hexited hpc hinit _
  | advance ht hexited hready hadvance => exact h.advance ht hexited hready hadvance

/-- Only init and the reaper take part at the start. -/
theorem boot_tasks (ht : boot.tasks id = some t) :
    id = initTask ∧ t = { process := initPid, space := none } ∨
      id = reaperTask ∧ t = { process := 3, space := none, pc := .reaperWaiting } := by
  unfold boot at ht
  dsimp only at ht
  split at ht
  · exact Or.inl ⟨rfl, (Option.some.inj ht).symm⟩
  · exact Or.inr ⟨rfl, (Option.some.inj ht).symm⟩
  · cases ht

theorem recorded_boot : boot.history.Recorded := by
  have hinit : History.Recorded { table := (({} : ProcessTable).createInit initTask).2 } :=
    History.Recorded.initial ⟨initTask, rfl⟩
  exact (hinit.step_create none 1).step_create none reaperTask

theorem core_boot : Core boot where
  recorded := recorded_boot
  noWaiters p r hr := by
    have hmem : r ∈ boot.history.table.processes := List.mem_of_find?_eq_some hr
    have hall : ∀ r ∈ boot.history.table.processes, r.childWaiters = [] := by decide
    exact hall r hmem
  task id t ht := by
    rcases boot_tasks ht with ⟨rfl, rfl⟩ | ⟨rfl, rfl⟩
    · exact ⟨⟨.new initPid none none initTask, by decide, rfl, rfl, rfl⟩, trivial,
        (fun hex => absurd hex (by simp)), (fun hb => absurd hb (by simp)), (fun hb => absurd hb (by simp)), by decide⟩
    · exact ⟨⟨.new 3 none none reaperTask, by decide, rfl, rfl, rfl⟩, trivial,
        (fun hex => absurd hex (by simp)), (fun hb => absurd hb (by simp)), (fun hb => absurd hb (by simp)), by decide⟩
  task_lt id t ht := by
    rcases boot_tasks ht with ⟨rfl, -⟩ | ⟨rfl, -⟩ <;> decide
  reaper_live := ⟨_, rfl⟩
  retiring id t task p ht hpc := by
    rcases boot_tasks ht with ⟨-, rfl⟩ | ⟨-, rfl⟩ <;> cases hpc
  exitQueue_iff id := by
    constructor
    · intro hmem
      cases hmem
    · rintro ⟨t, ht, hexited⟩
      rcases boot_tasks ht with ⟨-, rfl⟩ | ⟨-, rfl⟩ <;> cases hexited
  exitQueue_nodup := List.nodup_nil
  childWait_iff id := by
    constructor
    · intro hmem
      cases hmem
    · rintro ⟨t, ht, hblocked⟩
      rcases boot_tasks ht with ⟨-, rfl⟩ | ⟨-, rfl⟩ <;> cases hblocked
  childWait_nodup := List.nodup_nil
  reaperWait_of_blocked t ht hblocked := by
    rcases boot_tasks ht with ⟨-, rfl⟩ | ⟨-, rfl⟩ <;> cases hblocked
  reaperWait_of_ready _ _ _ := rfl
  not_lost id t target ht hblocked := by
    rcases boot_tasks ht with ⟨-, rfl⟩ | ⟨-, rfl⟩ <;> cases hblocked

theorem inv_boot : Inv boot where
  core := core_boot
  spaces :=
    { space_lt := fun p s hs => by
        simp [boot, History.perform] at hs
      space_unique := fun p q s hs => by
        simp [boot, History.perform] at hs
      forking := fun id t s ht hpc => by
        rcases boot_tasks ht with ⟨-, rfl⟩ | ⟨-, rfl⟩ <;> cases hpc
      forking_unique := fun id id' t t' s ht hpc => by
        rcases boot_tasks ht with ⟨-, rfl⟩ | ⟨-, rfl⟩ <;> cases hpc
      toRelease := fun id t s ht hs => by
        rcases boot_tasks ht with ⟨-, rfl⟩ | ⟨-, rfl⟩ <;> cases hs }
  statuses :=
    { recorded := fun p r s hr hs => by
        have hmem : r ∈ boot.history.table.processes := List.mem_of_find?_eq_some hr
        have hall : ∀ r ∈ boot.history.table.processes, r.exitStatus = none := by decide
        rw [hall r hmem] at hs
        cases hs
      held := fun id t c s ht hheld => by
        rcases boot_tasks ht with ⟨-, rfl⟩ | ⟨-, rfl⟩ <;> cases hheld
      held_unique := fun id id' t t' c s s' ht hheld => by
        rcases boot_tasks ht with ⟨-, rfl⟩ | ⟨-, rfl⟩ <;> cases hheld
      returned := fun c s hmem => (by cases hmem)
      returned_nodup := List.nodup_nil
      covered := fun c hc => (by cases hc)
      taskless := fun c hc => (by cases hc) }

/-! ## What the invariant promises -/

/-- The promise of the waiting protocol. A task that releases an address space is the one that runs,
so its own address space is the active one. -/
structure Safe (sys : Lifecycle) : Prop where
  /-- A task blocked on the queue of waiting parents waits for children none of which is collectible,
  unless a section in progress is going to wake that queue. -/
  not_lost : ∀ id t, sys.tasks id = some t → t.blockedOn = some .childWait →
    ∃ target, t.pc = .waiting target ∧
      (Collectible sys.history.table t.process target → sys.WakePending)
  /-- A wait fails only if the caller has no such child. -/
  no_child : ∀ id action sys', Step sys (id, action) sys' → sys'.failed = sys.failed ∨
    ∃ t target noHang, sys.tasks id = some t ∧ action = .wait target noHang ∧
      sys'.failed = sys.failed ++ [(id, target)] ∧ ¬HasSuchChild sys.history.table t.process target
  /-- No two waits return the status of one child. -/
  returned_once : (sys.returned.map Prod.fst).Nodup
  /-- The status returned is the one the child exited with. -/
  returned_status : ∀ c s, (c, s) ∈ sys.returned → c ∈ sys.history.collected ∧ sys.status c = some s
  /-- A status that was collected is returned or held by exactly one wait in progress. -/
  collected_once : ∀ c ∈ sys.history.collected,
    (c ∈ sys.returned.map Prod.fst ∧
        ∀ id t s, sys.tasks id = some t → t.pc.holds ≠ some (c, s)) ∨
      c ∉ sys.returned.map Prod.fst ∧
        ∃! id, ∃ t s, sys.tasks id = some t ∧ t.pc.holds = some (c, s) ∧ sys.status c = some s
  /-- An address space that is being released is not the active one, and no task runs in it. -/
  release_unused : ∀ id t space spaces caller, sys.tasks id = some t →
    t.pc = .releasing (space :: spaces) caller →
    t.space ≠ some space ∧ ∀ id' t', sys.tasks id' = some t' → t'.space ≠ some space

/-- A wait fails at its first check or not at all. -/
theorem Inv.no_child (h : Inv sys) (hstep : Step sys (id, action) sys') :
    sys'.failed = sys.failed ∨ ∃ t target noHang, sys.tasks id = some t ∧
      action = .wait target noHang ∧ sys'.failed = sys.failed ++ [(id, target)] ∧
      ¬HasSuchChild sys.history.table t.process target := by
  cases hstep with
  | fork _ _ _ _ => exact Or.inl rfl
  | wait ht hexited hready hpc =>
    rename_i t target noHang
    unfold Lifecycle.waitForChild
    split
    · next e herror =>
      exact Or.inr ⟨t, target, noHang, ht, rfl, rfl, ready_error h.core.recorded.family herror⟩
    · exact Or.inl rfl
    · split_ifs <;> exact Or.inl rfl
  | exit _ _ _ _ _ => exact Or.inl rfl
  | advance ht hexited hready hadvance =>
    rename_i t
    refine Or.inl ?_
    cases hpc : t.pc with
    | running =>
      rw [hpc] at hadvance
      cases hadvance
    | waiting target =>
      rw [hpc] at hadvance
      cases hadvance
      unfold Lifecycle.waitEvent
      split <;> rfl
    | rechecking target =>
      rw [hpc] at hadvance
      cases hadvance
      obtain ⟨child, -, -, heq⟩ := h.recheck_eq ht hpc
      rw [heq]
      rfl
    | collecting target child =>
      -- the child found is still there: only this task could have collected it
      have hfinished : FinishedChild sys.history.table t.process child := by
        have hpcOk := (h.core.task id t ht).pcOk
        rw [hpc] at hpcOk
        exact hpcOk.2
      obtain ⟨status, hok, -⟩ := h.collect_ok hfinished
      rw [hpc] at hadvance
      cases hadvance
      simp only [Lifecycle.collect, hok]
      rfl
    | collected child status waiters =>
      obtain rfl : waiters = [] := by
        have hpcOk := (h.core.task id t ht).pcOk
        rwa [hpc] at hpcOk
      rw [hpc] at hadvance
      cases hadvance
      rfl
    | releasing spaces caller =>
      rw [hpc] at hadvance
      cases spaces with
      | nil =>
        cases hadvance
        cases caller <;> rfl
      | cons space spaces =>
        cases hadvance
        rfl
    | reaperWaiting =>
      rw [hpc] at hadvance
      cases hadvance
      split_ifs <;> rfl
    | reaping =>
      rw [hpc] at hadvance
      cases hadvance
      unfold Lifecycle.reapOne
      split <;> rfl
    | _ =>
      rw [hpc] at hadvance
      cases hadvance
      rfl

/-- A taken address space belonged to a process that is gone. -/
theorem Inv.space_ne_of_taken (h : Inv sys) {space : ℕ} (htaken : space ∈ sys.history.taken)
    (ht : sys.tasks id = some t) : t.space ≠ some space := by
  intro hspace
  have hrec := h.core.recorded
  have hmem : space ∈ sys.history.reaped.filterMap ProcessControlBlock.addressSpace :=
    hrec.released_eq ▸ List.mem_append_left _ htaken
  obtain ⟨r, hr, haddress⟩ := List.mem_filterMap.mp hmem
  obtain ⟨-, -, hgone, hcreated⟩ := hrec.reaped_gone r hr
  obtain ⟨rt, hrt, -, haddress', -⟩ := (h.core.task id t ht).record
  -- both processes were created with the address space, so they are one
  have heq : t.process = r.id := h.spaces.space_unique t.process r.id space
    ((hrec.space_eq t.process rt hrt).symm.trans (haddress'.trans hspace))
    (hcreated.symm.trans haddress)
  rw [← heq, hrt] at hgone
  cases hgone

theorem Inv.safe (h : Inv sys) : Safe sys where
  not_lost id t ht hblocked := by
    obtain ⟨target, hpc⟩ := (h.core.task id t ht).childWait hblocked
    exact ⟨target, hpc, h.core.not_lost id t target ht hblocked hpc⟩
  no_child _ _ _ hstep := h.no_child hstep
  returned_once := h.statuses.returned_nodup
  returned_status := h.statuses.returned
  collected_once c hc := by
    by_cases hdone : c ∈ sys.returned.map Prod.fst
    · refine Or.inl ⟨hdone, fun id t s ht hheld => ?_⟩
      exact (h.statuses.held id t c s ht hheld).2.2 hdone
    · obtain ⟨id, t, s, ht, hheld⟩ := (h.statuses.covered c hc).resolve_left hdone
      refine Or.inr ⟨hdone, id, ⟨t, s, ht, hheld, (h.statuses.held id t c s ht hheld).2.1⟩, ?_⟩
      rintro id' ⟨t', s', ht', hheld', -⟩
      exact h.statuses.held_unique id' id t' t c s' s ht' hheld' ht hheld
  release_unused id t space spaces caller ht hpc := by
    have htaken := h.spaces.toRelease id t space ht (by rw [hpc]; exact List.mem_cons_self)
    exact ⟨h.space_ne_of_taken htaken ht, fun id' t' ht' => h.space_ne_of_taken htaken ht'⟩

/-- From boot, whatever the order of the sections. -/
theorem reachable_safe (hrun : Run.Reachable (· = boot) Step sys) : Safe sys :=
  Inv.safe <| hrun.invariant (fun _ hinit => hinit ▸ inv_boot) fun _ _ _ hinv hstep => hinv.step hstep

/-- Init has forked a child. -/
def childForked : Lifecycle :=
  let t : Task := { process := initPid, space := none }
  (boot.registerSpace initTask t).spawnForked initTask { t with pc := .forking 1 } 1

/-- Init is about to block until its child exits. -/
def initWaiting : Lifecycle :=
  childForked.waitForChild initTask { process := initPid, space := none } none false

/-- Init is blocked. -/
def initBlocked : Lifecycle :=
  initWaiting.waitEvent initTask { process := initPid, space := none, pc := .waiting none } none

theorem reachable_initBlocked : Run.Reachable (· = boot) Step initBlocked := by
  have hfork : Step boot (initTask, .fork) _ := .fork rfl rfl rfl rfl
  have hspawn : Step (boot.registerSpace initTask { process := initPid, space := none })
      (initTask, .advance) childForked := .advance rfl rfl rfl rfl
  have hwait : Step childForked (initTask, .wait none false) initWaiting := .wait rfl rfl rfl rfl
  have hblock : Step initWaiting (initTask, .advance) initBlocked := .advance rfl rfl rfl rfl
  exact .next (.next (.next (.next (.start rfl) hfork) hspawn) hwait) hblock

theorem reachable_safe_initBlocked :
    Safe initBlocked ∧ initBlocked.childWait = [initTask] :=
  ⟨reachable_safe reachable_initBlocked, by decide⟩

end Lifecycle

end SaeOS.Process
