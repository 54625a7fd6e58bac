import SaeOS.Process.LifecycleInvariant

/-!
# The sections of the waiting protocol

One lemma for each section: it keeps the invariant.
-/

namespace SaeOS.Process

namespace Lifecycle

/-- The invariant of the protocol. -/
structure Inv (sys : Lifecycle) : Prop where
  core : Core sys
  spaces : Spaces sys
  statuses : Statuses sys

variable {sys : Lifecycle} {id child : ℕ} {t : Task} {target : Option ℕ}

/-! ## Moves without a change of the table -/

/-- A section that leaves the table alone. -/
theorem Moves.stay (h : Core sys) {pc : Pc} (hpc : PcOk sys.history.table t.process pc)
    (hreaper : pc.ofReaper = t.pc.ofReaper) (hplain : pc.plain = true)
    (hwakes : (∀ id' t', sys.tasks id' = some t' → t'.blockedOn ≠ some .childWait) ∨
      (t.pc.willWake = true → pc.willWake = true)) : Moves sys id t sys.history pc where
  recorded := h.recorded
  nextId := le_rfl
  inherits := Inherits.refl _
  keeps _ _ _ _ := Keeps.refl _ _
  record := (Keeps.refl _ _).record
  heard := hwakes.imp_right fun hkept => Or.inr ⟨fun _ _ _ _ hc => hc, hkept⟩
  pcOk := hpc
  reaper := hreaper
  retiring task p hretiring := absurd hretiring (Pc.ne_retiring hplain task p)

/-- A section in which no status and no address space changes hands. -/
theorem Inv.moves (h : Inv sys) (ht : sys.tasks id = some t) (hready : t.blockedOn = none)
    (hexited : t.exited = false) {h' : History} {pc : Pc} (hmoves : Moves sys id t h' pc)
    (hspace : h'.space = sys.history.space) (hcollected : h'.collected = sys.history.collected)
    (hholds : pc.holds = t.pc.holds) (hfork : ∀ s, pc ≠ .forking s)
    (htaken : ∀ s ∈ sys.history.taken, s ∈ h'.taken) (hrelease : ∀ s ∈ pc.toRelease, s ∈ h'.taken) :
    Inv { sys with
      history := h', tasks := Function.update sys.tasks id (some { t with pc }) } :=
  ⟨h.core.moves ht hready hexited hmoves, h.spaces.moves ht hspace htaken hfork hrelease,
    h.statuses.moves ht hcollected hmoves.inherits hholds⟩

/-- A task that only goes on keeps everything. -/
theorem Inv.goto (h : Inv sys) (ht : sys.tasks id = some t) (hready : t.blockedOn = none)
    (hexited : t.exited = false) (pc : Pc) (hpc : PcOk sys.history.table t.process pc)
    (hreaper : pc.ofReaper = t.pc.ofReaper) (hplain : pc.plain = true)
    (hwakes : (∀ id' t', sys.tasks id' = some t' → t'.blockedOn ≠ some .childWait) ∨
      (t.pc.willWake = true → pc.willWake = true))
    (hholds : pc.holds = t.pc.holds) (hrelease : ∀ s ∈ pc.toRelease, s ∈ t.pc.toRelease) :
    Inv (sys.goto id t pc) :=
  h.moves ht hready hexited (Moves.stay h.core hpc hreaper hplain hwakes) rfl rfl hholds
    (Pc.ne_forking hplain) (fun _ hs => hs)
    fun s hs => h.spaces.toRelease id t s ht (hrelease s hs)

/-- Failing a wait is going back to `running`. -/
theorem Inv.fail (h : Inv sys) (ht : sys.tasks id = some t) (hready : t.blockedOn = none)
    (hexited : t.exited = false) (hreaper : t.pc.ofReaper = false) (hholds : t.pc.holds = none)
    (target : Option ℕ) : Inv (sys.fail id t target) := by
  have hwakes : t.pc.willWake = true → Pc.running.willWake = true := by
    intro hw
    cases hpc : t.pc <;> simp_all [Pc.ofReaper, Pc.willWake]
  have hgoto := h.goto ht hready hexited .running trivial hreaper.symm rfl
    (Or.inr hwakes) hholds.symm fun s hs => (by cases hs)
  exact ⟨hgoto.core.relog _ _ _ _, hgoto.spaces.of_samePcs rfl rfl rfl (SamePcs.refl _),
    hgoto.statuses.of_samePcs hgoto.statuses.recorded rfl (fun _ _ => rfl) rfl (SamePcs.refl _)⟩

/-- The first check of `wait_for_child`. -/
theorem Inv.waitForChild (h : Inv sys) (ht : sys.tasks id = some t) (hready : t.blockedOn = none)
    (hexited : t.exited = false) (hpc : t.pc = .running) (target : Option ℕ) (noHang : Bool) :
    Inv (sys.waitForChild id t target noHang) := by
  have hfamily := h.core.recorded.family
  unfold Lifecycle.waitForChild
  split
  · exact h.fail ht hready hexited (by rw [hpc]; rfl) (by rw [hpc]; rfl) target
  · next child hfound =>
    exact h.goto ht hready hexited _ (ready_some hfamily hfound) (by rw [hpc]; rfl) rfl
      (Or.inr (by rw [hpc]; exact fun hw => hw)) (by rw [hpc]; rfl) fun s hs => (by cases hs)
  · next hnone =>
    split_ifs
    · exact h
    · exact h.goto ht hready hexited _ (ready_none hfamily hnone).1 (by rw [hpc]; rfl) rfl
        (Or.inr (by rw [hpc]; exact fun hw => hw)) (by rw [hpc]; rfl) fun s hs => (by cases hs)

/-- When a task may block: a parent only while nothing is collectible, the reaper only while there
is nothing to retire. -/
def MayBlock (sys : Lifecycle) (t : Task) : Queue → Prop
  | .childWait => ∃ target, t.pc = .waiting target ∧
      ¬Collectible sys.history.table t.process target
  | .reaperWait => t.pc = .reaperWaiting ∧ sys.exitQueue = []

/-- The reaper blocks only on its own queue, parents only on theirs. -/
theorem MayBlock.reaper_iff {queue : Queue} (hmay : MayBlock sys t queue)
    (hok : TaskOk sys.history.table id t) : queue = .reaperWait ↔ id = reaperTask := by
  rw [← hok.reaper]
  cases queue with
  | childWait =>
    obtain ⟨target, hpc, -⟩ := hmay
    simp [hpc, Pc.ofReaper, Pc.willWake]
  | reaperWait => simp [hmay.1, Pc.ofReaper]

section Block

variable (sys : Lifecycle) (id : ℕ) (t : Task) (queue : Queue)

theorem block_tasks : (sys.block id t queue).tasks =
    Function.update sys.tasks id (some { t with blockedOn := some queue }) := by
  cases queue <;> rfl

theorem block_history : (sys.block id t queue).history = sys.history := by
  cases queue <;> rfl

theorem block_exitQueue : (sys.block id t queue).exitQueue = sys.exitQueue := by
  cases queue <;> rfl

theorem block_nextTask : (sys.block id t queue).nextTask = sys.nextTask := by
  cases queue <;> rfl

end Block

variable {queue : Queue}

theorem MayBlock.taskOk (hmay : MayBlock sys t queue) (hok : TaskOk sys.history.table id t)
    (hexited : t.exited = false) :
    TaskOk sys.history.table id { t with blockedOn := some queue } where
  record := hok.record
  pcOk := hok.pcOk
  exited hex := absurd (hexited.symm.trans hex) Bool.false_ne_true
  childWait hwait := by
    obtain rfl : queue = .childWait := Option.some.inj hwait
    obtain ⟨target, hpc, -⟩ := hmay
    exact ⟨target, hpc⟩
  reaperWait hwait := by
    obtain rfl : queue = .reaperWait := Option.some.inj hwait
    exact hmay.1
  reaper := hok.reaper

/-- Only the reaper blocks on its queue. -/
theorem MayBlock.reaperWait_eq (hmay : MayBlock sys t queue) (hok : TaskOk sys.history.table id t)
    (hne : reaperTask ≠ id) : (sys.block id t queue).reaperWait = sys.reaperWait := by
  cases queue with
  | childWait => rfl
  | reaperWait => exact absurd ((hmay.reaper_iff hok).mp rfl).symm hne

/-- A parent that blocks joins the waiting parents. -/
theorem Core.mem_childWait_block (h : Core sys) (ht : sys.tasks id = some t)
    (hready : t.blockedOn = none)
    (queue : Queue) (id' : ℕ) : id' ∈ (sys.block id t queue).childWait ↔
      ∃ t₁, (sys.block id t queue).tasks id' = some t₁ ∧ t₁.blockedOn = some .childWait := by
  rw [block_tasks]
  cases queue with
  | reaperWait =>
    refine (h.childWait_iff id').trans (exists_update_iff ht ?_ id').symm
    simp [hready]
  | childWait =>
    show id' ∈ sys.childWait ++ [id] ↔ _
    rw [List.mem_append, List.mem_singleton, h.childWait_iff id']
    by_cases heq : id' = id
    · simp [heq]
    · simp [heq]

theorem Core.nodup_childWait_block (h : Core sys) (ht : sys.tasks id = some t)
    (hready : t.blockedOn = none) (queue : Queue) : (sys.block id t queue).childWait.Nodup := by
  cases queue with
  | reaperWait => exact h.childWait_nodup
  | childWait =>
    show (sys.childWait ++ [id]).Nodup
    rw [← List.concat_eq_append]
    exact h.childWait_nodup.concat (h.not_mem_childWait ht hready)

theorem Core.block (h : Core sys) (ht : sys.tasks id = some t) (hready : t.blockedOn = none)
    (hexited : t.exited = false) (queue : Queue) (hmay : MayBlock sys t queue) :
    Core (sys.block id t queue) := by
  have hok := h.task id t ht
  -- whoever is looked up after the section was there before it
  have hcases : ∀ id' t₁, (sys.block id t queue).tasks id' = some t₁ →
      id' = id ∧ t₁ = { t with blockedOn := some queue } ∨ id' ≠ id ∧ sys.tasks id' = some t₁ := by
    intro id' t₁ ht₁
    rw [block_tasks] at ht₁
    exact tasks_update_cases ht₁
  have hsame : ∀ (P : Task → Prop), (P { t with blockedOn := some queue } ↔ P t) → ∀ id',
      (∃ t₁, (sys.block id t queue).tasks id' = some t₁ ∧ P t₁) ↔
        ∃ t₁, sys.tasks id' = some t₁ ∧ P t₁ := by
    intro P hP id'
    rw [block_tasks]
    exact exists_update_iff ht hP id'
  exact {
    recorded := by rw [block_history]; exact h.recorded
    noWaiters := by rw [block_history]; exact h.noWaiters
    task := fun id' t₁ ht₁ => by
      rw [block_history]
      rcases hcases id' t₁ ht₁ with ⟨rfl, rfl⟩ | ⟨-, hold⟩
      · exact hmay.taskOk hok hexited
      · exact h.task id' t₁ hold
    task_lt := fun id' t₁ ht₁ => by
      rw [block_nextTask]
      rcases hcases id' t₁ ht₁ with ⟨rfl, rfl⟩ | ⟨-, hold⟩
      · exact h.task_lt id' t ht
      · exact h.task_lt id' t₁ hold
    reaper_live := by
      obtain ⟨tr, htr⟩ := h.reaper_live
      obtain ⟨t₁, ht₁, -⟩ := (hsame (fun _ => True) Iff.rfl reaperTask).mpr ⟨tr, htr, trivial⟩
      exact ⟨t₁, ht₁⟩
    retiring := fun id' t₁ task p ht₁ hpc => by
      obtain ⟨t₀, ht₀, hpc₀⟩ := (hsame (fun y => y.pc = .retiring task p) Iff.rfl id').mp
        ⟨t₁, ht₁, hpc⟩
      obtain ⟨hlt, hother⟩ := h.retiring id' t₀ task p ht₀ hpc₀
      rw [block_history]
      refine ⟨hlt, fun id₂ t₂ ht₂ => ?_⟩
      rcases hcases id₂ t₂ ht₂ with ⟨rfl, rfl⟩ | ⟨-, hold₂⟩
      · exact hother id₂ t ht
      · exact hother id₂ t₂ hold₂
    exitQueue_iff := fun id' => by
      rw [block_exitQueue, h.exitQueue_iff id']
      exact (hsame (fun y => y.exited = true) Iff.rfl id').symm
    exitQueue_nodup := by rw [block_exitQueue]; exact h.exitQueue_nodup
    childWait_iff := h.mem_childWait_block ht hready queue
    childWait_nodup := h.nodup_childWait_block ht hready queue
    reaperWait_of_blocked := fun t₁ ht₁ hwait => by
      rw [block_exitQueue]
      rcases hcases reaperTask t₁ ht₁ with ⟨hid, rfl⟩ | ⟨hid, hold⟩
      · obtain rfl : queue = .reaperWait := (hmay.reaper_iff hok).mpr hid.symm
        show sys.reaperWait ++ [id] = _ ∧ _
        rw [h.reaperWait_of_ready t (hid ▸ ht) hready, ← hid]
        exact ⟨rfl, hmay.2⟩
      · rw [hmay.reaperWait_eq hok hid]
        exact h.reaperWait_of_blocked t₁ hold hwait
    reaperWait_of_ready := fun t₁ ht₁ hnone => by
      rcases hcases reaperTask t₁ ht₁ with ⟨hid, rfl⟩ | ⟨hid, hold⟩
      · cases hnone
      · rw [hmay.reaperWait_eq hok hid]
        exact h.reaperWait_of_ready t₁ hold hnone
    not_lost := fun id' t₁ target ht₁ hwait hpc hcollectible => by
      rw [block_history] at hcollectible
      rcases hcases id' t₁ ht₁ with ⟨rfl, rfl⟩ | ⟨-, hold⟩
      · obtain rfl : queue = .childWait := Option.some.inj hwait
        obtain ⟨target', hpc', hopen⟩ := hmay
        cases hpc'.symm.trans hpc
        exact absurd hcollectible hopen
      · obtain ⟨tr, htr, hwakes⟩ := h.not_lost id' t₁ target hold hwait hpc hcollectible
        exact (hsame (fun y => y.pc.willWake = true) Iff.rfl reaperTask).mpr ⟨tr, htr, hwakes⟩ }

theorem Inv.block (h : Inv sys) (ht : sys.tasks id = some t) (hready : t.blockedOn = none)
    (hexited : t.exited = false) (queue : Queue) (hmay : MayBlock sys t queue) :
    Inv (sys.block id t queue) := by
  have hsame : SamePcs sys.tasks (sys.block id t queue).tasks := by
    rw [block_tasks]
    exact samePcs_update ht rfl rfl
  refine ⟨h.core.block ht hready hexited queue hmay, ?_, ?_⟩
  · cases queue <;> exact h.spaces.of_samePcs rfl rfl rfl hsame
  · cases queue <;>
      exact h.statuses.of_samePcs h.statuses.recorded rfl (fun _ _ => rfl) rfl hsame

/-- A round of the wait loop: the parent blocks, or goes on to check again. -/
theorem Inv.waitEvent (h : Inv sys) (ht : sys.tasks id = some t) (hready : t.blockedOn = none)
    (hexited : t.exited = false) (hpc : t.pc = .waiting target) :
    Inv (sys.waitEvent id t target) := by
  have hfamily := h.core.recorded.family
  have hchild : HasSuchChild sys.history.table t.process target := by
    have hpcOk := (h.core.task id t ht).pcOk
    rwa [hpc] at hpcOk
  unfold Lifecycle.waitEvent
  split
  · next hnone => exact h.block ht hready hexited .childWait ⟨target, hpc,
      (ready_none hfamily hnone).2⟩
  · next hnot =>
    -- the check did not fail, so it has found somebody
    have hcollectible : Collectible sys.history.table t.process target := by
      cases hfound : ready sys.history.table t.process target with
      | error e => exact absurd hchild (ready_error hfamily hfound)
      | ok found =>
        cases found with
        | none => exact absurd hfound hnot
        | some child => exact ⟨child, ready_some hfamily hfound⟩
    exact h.goto ht hready hexited _ hcollectible (by rw [hpc]; rfl) rfl
      (Or.inr (by rw [hpc]; exact fun hw => hw)) (by rw [hpc]; rfl) fun s hs => (by cases hs)

/-- The second check finds what the wait loop saw. -/
theorem Inv.recheck_eq (h : Inv sys) (ht : sys.tasks id = some t)
    (hpc : t.pc = .rechecking target) :
    ∃ child, Matches target child ∧ FinishedChild sys.history.table t.process child ∧
      sys.recheck id t target = sys.goto id t (.collecting target child) := by
  have hcollectible : Collectible sys.history.table t.process target := by
    have hpcOk := (h.core.task id t ht).pcOk
    rwa [hpc] at hpcOk
  obtain ⟨child, hfound⟩ := ready_of_collectible h.core.recorded.family hcollectible
  obtain ⟨hmatch, hfinished⟩ := ready_some h.core.recorded.family hfound
  exact ⟨child, hmatch, hfinished, by rw [recheck, hfound]⟩

theorem Inv.recheck (h : Inv sys) (ht : sys.tasks id = some t) (hready : t.blockedOn = none)
    (hexited : t.exited = false) (hpc : t.pc = .rechecking target) :
    Inv (sys.recheck id t target) := by
  obtain ⟨child, hmatch, hfinished, heq⟩ := h.recheck_eq ht hpc
  rw [heq]
  exact h.goto ht hready hexited _ ⟨hmatch, hfinished⟩ (by rw [hpc]; rfl) rfl
    (Or.inr (by rw [hpc]; exact fun hw => hw)) (by rw [hpc]; rfl) fun s hs => (by cases hs)

/-- One address space is released. -/
theorem Inv.releaseOne (h : Inv sys) (ht : sys.tasks id = some t) (hready : t.blockedOn = none)
    (hexited : t.exited = false) {space : ℕ} {spaces : List ℕ} {caller : Caller}
    (hpc : t.pc = .releasing (space :: spaces) caller) :
    Inv (sys.goto id t (.releasing spaces caller)) := by
  refine h.goto ht hready hexited _ trivial ?_ rfl (Or.inr ?_) ?_ fun s hs => ?_
  · rw [hpc]
    cases caller <;> rfl
  · rw [hpc]
    cases caller <;> exact fun hw => hw
  · rw [hpc]
    cases caller <;> rfl
  · rw [hpc]
    exact List.mem_cons_of_mem space hs

/-- The reaper looks for exited tasks. -/
theorem Inv.reaperWaiting (h : Inv sys) (ht : sys.tasks id = some t) (hready : t.blockedOn = none)
    (hexited : t.exited = false) (hpc : t.pc = .reaperWaiting) :
    Inv (if sys.exitQueue.isEmpty then sys.block id t .reaperWait else sys.goto id t .reaping) := by
  split_ifs with hempty
  · exact h.block ht hready hexited .reaperWait ⟨hpc, List.isEmpty_iff.mp hempty⟩
  · exact h.goto ht hready hexited _ trivial (by rw [hpc]; rfl) rfl
      (Or.inr (by rw [hpc]; exact fun hw => hw)) (by rw [hpc]; rfl) fun s hs => (by cases hs)

/-- The parents are woken up, and the reaper goes on. -/
theorem Inv.waking (h : Inv sys) (ht : sys.tasks id = some t) (hready : t.blockedOn = none)
    (hexited : t.exited = false) (hpc : t.pc = .waking) :
    Inv ((sys.wakeParents).goto id t .reaping) := by
  obtain ⟨hcore, hnone⟩ := h.core.wakeParents
  have heq := h.core.wakeParents_eq
  have hsame := samePcs_leaveAll .childWait sys.tasks
  have hwoken : Inv sys.wakeParents := by
    refine ⟨hcore, ?_, ?_⟩
    · rw [heq]
      exact h.spaces.of_samePcs rfl rfl rfl hsame
    · rw [heq]
      exact h.statuses.of_samePcs h.statuses.recorded rfl (fun _ _ => rfl) rfl hsame
  have ht' : sys.wakeParents.tasks id = some t := by
    rw [heq]
    show leaveAll .childWait sys.tasks id = some t
    rw [leaveAll, ht, Option.map_some, Task.leave_of_ready _ hready]
  exact hwoken.goto ht' hready hexited _ trivial (by rw [hpc]; rfl) rfl (Or.inl hnone)
    (by rw [hpc]; rfl) fun s hs => (by cases hs)

/-! ## Moves with an operation on the table -/

/-- Reaping a process that nothing keeps alive, as part of a section. -/
theorem Moves.reapIfEmpty {h' : History} {pc : Pc} (hmoves : Moves sys id t h' pc) (process : ℕ) :
    Moves sys id t (h'.perform (.reapIfEmpty process)) pc := by
  have hids := hmoves.recorded.ids
  have hfamily := hmoves.recorded.family
  have hkeep := keeps_reapIfEmpty hids hfamily process
  have hnext : (h'.table.reapIfEmpty process).2.nextId = h'.table.nextId := by
    rcases ProcessTable.reapIfEmpty_cases hids hfamily process with
      ⟨-, heq⟩ | ⟨r, -, -, -, -, hnext, -⟩
    · rw [heq]
    · exact hnext
  exact {
    recorded := hmoves.recorded.of_reap process
    nextId := hmoves.nextId.trans_eq hnext.symm
    inherits := hmoves.inherits.trans (inherits_reapIfEmpty hids hfamily process)
    keeps := fun id' t' ht' hne => (hmoves.keeps id' t' ht' hne).trans (hkeep t'.process).1
    record := hmoves.record.trans (hkeep t.process).1.record
    heard := hmoves.heard.imp_right <| Or.imp_right <| And.imp_left fun hquiet id' t' ht' =>
      (hquiet id' t' ht').trans (hkeep t'.process).2
    pcOk := hmoves.pcOk.keeps (hkeep t.process).1
    reaper := hmoves.reaper
    retiring := fun task p hpc => by
      show p < (h'.table.reapIfEmpty process).2.nextId ∧ _
      rw [hnext]
      exact hmoves.retiring task p hpc }

/-- The rest of `collect_child_status`: nobody waits for the child any more. -/
theorem Inv.removeWaiters (h : Inv sys) (ht : sys.tasks id = some t) (hready : t.blockedOn = none)
    (hexited : t.exited = false) {status : ℤ} {waiters : List ℕ}
    (hpc : t.pc = .collected child status waiters) :
    Inv (sys.removeWaiters id t child status waiters) := by
  obtain rfl : waiters = [] := by
    have hpcOk := (h.core.task id t ht).pcOk
    rwa [hpc] at hpcOk
  have hstay : Moves sys id t sys.history (.taking (.wait child status)) :=
    Moves.stay h.core trivial (by rw [hpc]; rfl) rfl (Or.inr (by rw [hpc]; exact fun hw => hw))
  exact h.moves ht hready hexited (hstay.reapIfEmpty child) rfl rfl (by rw [hpc]; rfl)
    (fun _ hfork => (by cases hfork)) (fun _ hs => hs) fun s hs => (by cases hs)

/-- The released address spaces are taken to be freed. -/
theorem Inv.takeSpaces (h : Inv sys) (ht : sys.tasks id = some t) (hready : t.blockedOn = none)
    (hexited : t.exited = false) {caller : Caller} (hpc : t.pc = .taking caller) :
    Inv (sys.takeSpaces id t caller) := by
  have hstep : History.Step sys.history .takeReleasedSpaces
      (sys.history.perform .takeReleasedSpaces) := ⟨trivial, rfl⟩
  have hprocess : (sys.history.perform .takeReleasedSpaces).table.process =
      sys.history.table.process := rfl
  have hmoves : Moves sys id t (sys.history.perform .takeReleasedSpaces)
      (.releasing sys.history.table.releasedSpaces caller) := {
    recorded := h.core.recorded.step hstep
    nextId := le_rfl
    inherits := fun c r hr => Or.inl ⟨r, hr, rfl, rfl⟩
    keeps := fun _ t' _ _ => (keeps_of_process_eq hprocess t'.process).1
    record := (keeps_of_process_eq hprocess t.process).1.record
    heard := Or.inr <| Or.inr ⟨fun _ t' _ => (keeps_of_process_eq hprocess t'.process).2, by
      rw [hpc]
      cases caller <;> exact fun hw => hw⟩
    pcOk := trivial
    reaper := by
      rw [hpc]
      cases caller <;> rfl
    retiring := fun _ _ hretiring => absurd hretiring (by simp) }
  refine h.moves ht hready hexited hmoves rfl rfl ?_ (fun _ hfork => absurd hfork (by simp))
    (fun _ hs => List.mem_append_left _ hs) fun s hs => List.mem_append_right _ hs
  rw [hpc]
  cases caller <;> rfl

/-- The reaper retires a thread: its process may become collectible, and the parents are going to be
woken up. -/
theorem Inv.retire (h : Inv sys) (ht : sys.tasks id = some t) (hready : t.blockedOn = none)
    (hexited : t.exited = false) {task process : ℕ} (hpc : t.pc = .retiring task process) :
    Inv (sys.retire id t task process) := by
  have hok := h.core.task id t ht
  obtain ⟨-, hother⟩ := h.core.retiring id t task process ht hpc
  have hid : id = reaperTask := hok.reaper.mp (by rw [hpc]; rfl)
  obtain ⟨hkeep, hinherits, hnext⟩ := keeps_removeThread sys.history.table process task
  have hstep : History.Step sys.history (.removeThread process task)
      (sys.history.perform (.removeThread process task)) := ⟨trivial, rfl⟩
  have hmoves : Moves sys id t (sys.history.perform (.removeThread process task))
      (.taking .reaper) := {
    recorded := h.core.recorded.step hstep
    nextId := hnext.ge
    inherits := hinherits
    keeps := fun id' t' ht' _ => hkeep t'.process (hother id' t' ht')
    record := (hkeep t.process (hother id t ht)).record
    heard := Or.inr (Or.inl ⟨hid, rfl⟩)
    pcOk := trivial
    reaper := by rw [hpc]; rfl
    retiring := fun _ _ hretiring => absurd hretiring (by simp) }
  exact h.moves ht hready hexited (hmoves.reapIfEmpty process) rfl rfl (by rw [hpc]; rfl)
    (fun _ hfork => (by cases hfork)) (fun _ hs => hs) fun s hs => (by cases hs)

/-! ## A status changes hands -/

/-- A child that can be collected is collected. -/
theorem Inv.collect_ok (h : Inv sys)
    (hfinished : FinishedChild sys.history.table t.process child) :
    ∃ status, (sys.history.table.waitChild t.process child).1 = .ok status ∧
      ∃ r, sys.history.table.process child = some r ∧ r.exitStatus = some status ∧
        r.threads = [] := by
  obtain ⟨r, hr, hparent, hfin⟩ := hfinished
  rw [ProcessControlBlock.isFinished, Bool.and_eq_true, List.isEmpty_iff] at hfin
  obtain ⟨status, hstatus⟩ := Option.isSome_iff_exists.mp hfin.1
  exact ⟨status, h.core.recorded.waitChild_of_parent hr hparent hstatus hfin.2, r, hr,
    hstatus, hfin.2⟩

/-- The task that collects a status holds it from now on. -/
theorem Statuses.collect (h : Statuses sys) (hcore : Core sys) (ht : sys.tasks id = some t)
    (hholds : t.pc.holds = none) {h' : History}
    (hcollected : h'.collected = sys.history.collected ++ [child])
    (hnew : child ∉ sys.history.collected) (hinherits : Inherits sys.history.table h'.table)
    {r : ProcessControlBlock} {status : ℤ} (hr : sys.history.table.process child = some r)
    (hstatus : r.exitStatus = some status) (hthreads : r.threads = []) :
    Statuses { sys with
      history := h'
      tasks := Function.update sys.tasks id
        (some { t with pc := .collected child status [] }) } where
  recorded p r₁ s hr₁ hs := by
    obtain ⟨r₀, hr₀, hs₀⟩ := hinherits.status hr₁ hs
    exact h.recorded p r₀ s hr₀ hs₀
  held id' t₁ c s ht₁ hheld := by
    show c ∈ h'.collected ∧ _
    rw [hcollected]
    rcases tasks_update_cases ht₁ with ⟨rfl, rfl⟩ | ⟨-, hold⟩
    · cases hheld
      refine ⟨List.mem_append_right _ (List.mem_singleton_self _),
        h.recorded child r status hr hstatus, fun hmem => ?_⟩
      obtain ⟨⟨c, s⟩, hpair, rfl⟩ := List.mem_map.mp hmem
      exact hnew (h.returned c s hpair).1
    · obtain ⟨hmem, hrest⟩ := h.held id' t₁ c s hold hheld
      exact ⟨List.mem_append_left _ hmem, hrest⟩
  held_unique id₁ id₂ t₁ t₂ c s s' ht₁ hheld₁ ht₂ hheld₂ := by
    rcases tasks_update_cases ht₁ with ⟨hid₁, rfl⟩ | ⟨-, hold₁⟩ <;>
      rcases tasks_update_cases ht₂ with ⟨hid₂, rfl⟩ | ⟨-, hold₂⟩
    · exact hid₁.trans hid₂.symm
    · cases hheld₁
      exact absurd (h.held id₂ t₂ child s' hold₂ hheld₂).1 hnew
    · cases hheld₂
      exact absurd (h.held id₁ t₁ child s hold₁ hheld₁).1 hnew
    · exact h.held_unique id₁ id₂ t₁ t₂ c s s' hold₁ hheld₁ hold₂ hheld₂
  returned c s hmem := by
    obtain ⟨hold, hs⟩ := h.returned c s hmem
    exact ⟨hcollected ▸ List.mem_append_left _ hold, hs⟩
  returned_nodup := h.returned_nodup
  covered c hc := by
    replace hc : c ∈ h'.collected := hc
    rw [hcollected, List.mem_append, List.mem_singleton] at hc
    rcases hc with hc | rfl
    · rcases h.covered c hc with hdone | ⟨id', t₁, s, ht₁, hheld⟩
      · exact Or.inl hdone
      · -- the collecting task held nothing before
        have hne : id' ≠ id := by
          rintro rfl
          rw [ht] at ht₁
          cases ht₁
          rw [hholds] at hheld
          cases hheld
        exact Or.inr ⟨id', t₁, s, (Function.update_of_ne hne ..).trans ht₁, hheld⟩
    · exact Or.inr ⟨id, _, status, Function.update_self id _ sys.tasks, rfl⟩
  taskless c hc id' t₁ ht₁ := by
    replace hc : c ∈ h'.collected := hc
    rw [hcollected, List.mem_append, List.mem_singleton] at hc
    obtain ⟨t₀, ht₀, hprocess⟩ : ∃ t₀, sys.tasks id' = some t₀ ∧ t₁.process = t₀.process := by
      rcases tasks_update_cases ht₁ with ⟨rfl, rfl⟩ | ⟨-, hold⟩
      · exact ⟨t, ht, rfl⟩
      · exact ⟨t₁, hold, rfl⟩
    rw [hprocess]
    rcases hc with hc | rfl
    · exact h.taskless c hc id' t₀ ht₀
    · -- a collected child has no thread left
      rintro rfl
      obtain ⟨r₀, hr₀, hthreads₀, -⟩ := (hcore.task id' t₀ ht₀).record
      rw [hr] at hr₀
      cases hr₀
      rw [hthreads] at hthreads₀
      cases hthreads₀

/-- The parent collects the status and holds it from now on. -/
theorem Inv.collect (h : Inv sys) (ht : sys.tasks id = some t) (hready : t.blockedOn = none)
    (hexited : t.exited = false) (hpc : t.pc = .collecting target child) :
    Inv (sys.collect id t target child) := by
  have hfinished : FinishedChild sys.history.table t.process child := by
    have hpcOk := (h.core.task id t ht).pcOk
    rw [hpc] at hpcOk
    exact hpcOk.2
  obtain ⟨status, hok, r, hr, hstatus, hthreads⟩ := h.collect_ok hfinished
  set h' := sys.history.perform (.waitChild t.process child) with hh'
  have htable : h'.table = (sys.history.table.waitChild t.process child).2 := by
    rw [hh', History.perform, hok]
    rfl
  have hcollected : h'.collected = sys.history.collected ++ [child] := by
    rw [hh', History.perform, hok]
  have hspace : h'.space = sys.history.space := by
    rw [hh', History.perform, hok]
  have htaken : h'.taken = sys.history.taken := by
    rw [hh', History.perform, hok]
  have hrec' : h'.Recorded := h.core.recorded.step_waitChild t.process child
  obtain ⟨hkeep, hrecord, hnone, hinherits, hnext⟩ := keeps_waitChild h.core.recorded hok
  rw [← htable] at hkeep hrecord hnone hinherits hnext
  have hnoWaiters := h.core.noWaiters.inherits hinherits
  have hwaiters : ((h'.table.process child).map ProcessControlBlock.childWaiters).getD [] = [] := by
    cases hr' : h'.table.process child with
    | none => rfl
    | some r' => simpa using hnoWaiters child r' hr'
  have heq : sys.collect id t target child =
      { sys with history := h', tasks :=
        Function.update sys.tasks id (some { t with pc := .collected child status [] }) } := by
    simp only [Lifecycle.collect, hok, Lifecycle.perform, ← hh', hwaiters]
    rfl
  have hmoves : Moves sys id t h' (.collected child status []) := {
    recorded := hrec'
    nextId := hnext.ge
    inherits := hinherits
    keeps := fun id' t' ht' hne => hkeep t'.process (h.core.process_ne ht ht' hne)
    record := hrecord
    heard := Or.inr <| Or.inr ⟨fun _ t' _ => hnone t'.process, by
      rw [hpc]
      exact fun hw => hw⟩
    pcOk := rfl
    reaper := by rw [hpc]; rfl
    retiring := fun _ _ hretiring => absurd hretiring (by simp) }
  have hnew : child ∉ sys.history.collected := by
    have hnodup := hrec'.collected_nodup
    rw [hcollected, List.nodup_append] at hnodup
    exact fun hmem => hnodup.2.2 child hmem child (List.mem_singleton_self child) rfl
  have hstatuses := h.statuses.collect h.core ht (by rw [hpc]; rfl) hcollected hnew hinherits hr
    hstatus hthreads
  rw [heq]
  exact ⟨h.core.moves ht hready hexited hmoves,
    h.spaces.moves ht hspace (fun _ hs => htaken ▸ hs) (fun _ hfork => absurd hfork (by simp))
      (fun s hs => (by cases hs)), hstatuses⟩

/-- The task that holds a status returns it. -/
theorem Statuses.handOver (h : Statuses sys) (ht : sys.tasks id = some t) {status : ℤ}
    (hholds : t.pc.holds = some (child, status)) :
    Statuses { sys with
      tasks := Function.update sys.tasks id (some { t with pc := .running })
      returned := sys.returned ++ [(child, status)] } := by
  obtain ⟨hcollected, hstatus, hnew⟩ := h.held id t child status ht hholds
  -- whoever holds a status now held it before, and it is another one
  have hold : ∀ id' t₁ c s,
      Function.update sys.tasks id (some { t with pc := .running }) id' = some t₁ →
      t₁.pc.holds = some (c, s) → sys.tasks id' = some t₁ ∧ c ≠ child := by
    intro id' t₁ c s ht₁ hheld
    rcases tasks_update_cases ht₁ with ⟨rfl, rfl⟩ | ⟨hne, hold⟩
    · cases hheld
    · refine ⟨hold, ?_⟩
      rintro rfl
      exact hne (h.held_unique id' id t₁ t c s status hold hheld ht hholds)
  exact {
    recorded := h.recorded
    held := fun id' t₁ c s ht₁ hheld => by
      obtain ⟨ht₀, hne⟩ := hold id' t₁ c s ht₁ hheld
      obtain ⟨hmem, hs, hout⟩ := h.held id' t₁ c s ht₀ hheld
      refine ⟨hmem, hs, ?_⟩
      rw [List.map_append, List.mem_append]
      rintro (hmem' | hmem')
      · exact hout hmem'
      · exact hne (List.mem_singleton.mp hmem')
    held_unique := fun id₁ id₂ t₁ t₂ c s s' ht₁ hheld₁ ht₂ hheld₂ =>
      h.held_unique id₁ id₂ t₁ t₂ c s s' (hold id₁ t₁ c s ht₁ hheld₁).1 hheld₁
        (hold id₂ t₂ c s' ht₂ hheld₂).1 hheld₂
    returned := fun c s hmem => by
      rcases List.mem_append.mp hmem with hmem | hmem
      · exact h.returned c s hmem
      · cases List.mem_singleton.mp hmem
        exact ⟨hcollected, hstatus⟩
    returned_nodup := by
      rw [List.map_append, List.map_singleton, ← List.concat_eq_append]
      exact h.returned_nodup.concat hnew
    covered := fun c hc => by
      rw [List.map_append, List.mem_append]
      rcases h.covered c hc with hdone | ⟨id', t₁, s, ht₁, hheld⟩
      · exact Or.inl (Or.inl hdone)
      · by_cases heq : id' = id
        · subst heq
          rw [ht] at ht₁
          cases ht₁
          rw [hholds] at hheld
          cases hheld
          exact Or.inl (Or.inr (List.mem_singleton_self _))
        · exact Or.inr ⟨id', t₁, s, (Function.update_of_ne heq ..).trans ht₁, hheld⟩
    taskless := fun c hc id' t₁ ht₁ => by
      rcases tasks_update_cases ht₁ with ⟨rfl, rfl⟩ | ⟨-, hold⟩
      · exact h.taskless c hc id' t ht
      · exact h.taskless c hc id' t₁ hold }

/-- The end of `release_reaped_spaces`: a parent returns the status it holds, the reaper goes on to
wake the parents. -/
theorem Inv.released (h : Inv sys) (ht : sys.tasks id = some t) (hready : t.blockedOn = none)
    (hexited : t.exited = false) {caller : Caller} (hpc : t.pc = .releasing [] caller) :
    Inv (sys.released id t caller) := by
  cases caller with
  | reaper =>
    exact h.goto ht hready hexited _ trivial (by rw [hpc]; rfl) rfl (Or.inr fun _ => rfl)
      (by rw [hpc]; rfl) fun s hs => (by cases hs)
  | wait child status =>
    have hmoves : Moves sys id t sys.history .running :=
      Moves.stay h.core trivial (by rw [hpc]; rfl) rfl (Or.inr (by rw [hpc]; exact fun hw => hw))
    have hspaces : Spaces (sys.goto id t .running) :=
      h.spaces.moves ht rfl (fun _ hs => hs) (fun _ hfork => (by cases hfork))
        fun s hs => (by cases hs)
    exact ⟨(h.core.moves ht hready hexited hmoves).relog _ _ _ _,
      hspaces.of_samePcs rfl rfl rfl (SamePcs.refl _),
      h.statuses.handOver ht (by rw [hpc]; rfl)⟩

/-! ## Tasks come and go -/

/-- An exited task is none of the protocol's. -/
theorem Core.exited_ne_reaper (h : Core sys) (ht : sys.tasks id = some t)
    (hexited : t.exited = true) :
    id ≠ reaperTask := by
  have hok := h.task id t ht
  intro heq
  have hreaper := hok.reaper.mpr heq
  rw [(hok.exited hexited).1] at hreaper
  cases hreaper

theorem tasks_drop {tasks : Tasks} {task id' : ℕ} {t₁ : Task}
    (h : Function.update tasks task none id' = some t₁) : id' ≠ task ∧ tasks id' = some t₁ := by
  by_cases heq : id' = task
  · rw [heq, Function.update_self] at h
    cases h
  · rw [Function.update_of_ne heq] at h
    exact ⟨heq, h⟩

/-- The front of the exit queue goes. -/
theorem Core.drop (h : Core sys) {task : ℕ} {rest : List ℕ}
    (hqueue : sys.exitQueue = task :: rest) :
    Core { sys with exitQueue := rest, tasks := Function.update sys.tasks task none } := by
  obtain ⟨te, hte, hexited⟩ := (h.exitQueue_iff task).mp (hqueue ▸ List.mem_cons_self)
  have hnotReaper := h.exited_ne_reaper hte hexited
  have hnodup := h.exitQueue_nodup
  rw [hqueue] at hnodup
  obtain ⟨hout, hrest⟩ := List.nodup_cons.mp hnodup
  exact {
    recorded := h.recorded
    noWaiters := h.noWaiters
    task := fun id' t₁ ht₁ => h.task id' t₁ (tasks_drop ht₁).2
    task_lt := fun id' t₁ ht₁ => h.task_lt id' t₁ (tasks_drop ht₁).2
    reaper_live := by
      obtain ⟨tr, htr⟩ := h.reaper_live
      exact ⟨tr, (Function.update_of_ne hnotReaper.symm ..).trans htr⟩
    retiring := fun id' t₁ task' p ht₁ hpc => by
      obtain ⟨hlt, hother⟩ := h.retiring id' t₁ task' p (tasks_drop ht₁).2 hpc
      exact ⟨hlt, fun id₂ t₂ ht₂ => hother id₂ t₂ (tasks_drop ht₂).2⟩
    exitQueue_iff := fun id' => by
      by_cases heq : id' = task
      · subst heq
        simp [hout]
      · dsimp only
        rw [Function.update_of_ne heq, ← h.exitQueue_iff id', hqueue, List.mem_cons,
          or_iff_right heq]
    exitQueue_nodup := hrest
    childWait_iff := fun id' => by
      by_cases heq : id' = task
      · subst heq
        have hnot := h.not_mem_childWait hte ((h.task _ te hte).exited hexited).2
        simp [hnot]
      · dsimp only
        rw [Function.update_of_ne heq]
        exact h.childWait_iff id'
    childWait_nodup := h.childWait_nodup
    reaperWait_of_blocked := fun t₁ ht₁ hblocked => by
      have hempty := (h.reaperWait_of_blocked t₁ (tasks_drop ht₁).2 hblocked).2
      rw [hqueue] at hempty
      cases hempty
    reaperWait_of_ready := fun t₁ ht₁ => h.reaperWait_of_ready t₁ (tasks_drop ht₁).2
    not_lost := fun id' t₁ target ht₁ hblocked hpc hcollectible => by
      obtain ⟨tr, htr, hwakes⟩ := h.not_lost id' t₁ target (tasks_drop ht₁).2 hblocked hpc
        hcollectible
      exact ⟨tr, (Function.update_of_ne hnotReaper.symm ..).trans htr, hwakes⟩ }

theorem Inv.drop (h : Inv sys) {task : ℕ} {rest : List ℕ} (hqueue : sys.exitQueue = task :: rest) :
    Inv { sys with exitQueue := rest, tasks := Function.update sys.tasks task none } := by
  obtain ⟨te, hte, hexited⟩ := (h.core.exitQueue_iff task).mp (hqueue ▸ List.mem_cons_self)
  refine ⟨h.core.drop hqueue, ?_, ?_⟩
  · exact {
      space_lt := h.spaces.space_lt
      space_unique := h.spaces.space_unique
      forking := fun id' t₁ s ht₁ => h.spaces.forking id' t₁ s (tasks_drop ht₁).2
      forking_unique := fun id₁ id₂ t₁ t₂ s ht₁ hpc₁ ht₂ hpc₂ =>
        h.spaces.forking_unique id₁ id₂ t₁ t₂ s (tasks_drop ht₁).2 hpc₁ (tasks_drop ht₂).2 hpc₂
      toRelease := fun id' t₁ s ht₁ => h.spaces.toRelease id' t₁ s (tasks_drop ht₁).2 }
  · exact {
      recorded := h.statuses.recorded
      held := fun id' t₁ c s ht₁ => h.statuses.held id' t₁ c s (tasks_drop ht₁).2
      held_unique := fun id₁ id₂ t₁ t₂ c s s' ht₁ hheld₁ ht₂ hheld₂ =>
        h.statuses.held_unique id₁ id₂ t₁ t₂ c s s' (tasks_drop ht₁).2 hheld₁ (tasks_drop ht₂).2
          hheld₂
      returned := h.statuses.returned
      returned_nodup := h.statuses.returned_nodup
      covered := fun c hc => by
        rcases h.statuses.covered c hc with hdone | ⟨id', t₁, s, ht₁, hheld⟩
        · exact Or.inl hdone
        · -- an exited task holds no status
          have hne : id' ≠ task := by
            rintro rfl
            rw [hte] at ht₁
            cases ht₁
            rw [((h.core.task _ te hte).exited hexited).1] at hheld
            cases hheld
          exact Or.inr ⟨id', t₁, s, (Function.update_of_ne hne ..).trans ht₁, hheld⟩
      taskless := fun c hc id' t₁ ht₁ => h.statuses.taskless c hc id' t₁ (tasks_drop ht₁).2 }

/-- The reaper takes an exited task, or goes back to wait. -/
theorem Inv.reapOne (h : Inv sys) (ht : sys.tasks id = some t) (hready : t.blockedOn = none)
    (hexited : t.exited = false) (hpc : t.pc = .reaping) : Inv (sys.reapOne id t) := by
  unfold Lifecycle.reapOne
  split
  · exact h.goto ht hready hexited _ trivial (by rw [hpc]; rfl) rfl
      (Or.inr (by rw [hpc]; exact fun hw => hw)) (by rw [hpc]; rfl) fun s hs => (by cases hs)
  · next task rest hqueue =>
    obtain ⟨te, hte, hexited'⟩ := (h.core.exitQueue_iff task).mp (hqueue ▸ List.mem_cons_self)
    have hne : id ≠ task := by
      rintro rfl
      rw [ht] at hte
      cases hte
      rw [hexited] at hexited'
      cases hexited'
    have hdrop := h.drop hqueue
    have ht' : Function.update sys.tasks task none id = some t :=
      (Function.update_of_ne hne ..).trans ht
    -- the process of the task that goes is nobody else's
    have hmoves : Moves
        { sys with exitQueue := rest, tasks := Function.update sys.tasks task none } id t
        sys.history (.retiring task te.process) := {
      recorded := h.core.recorded
      nextId := le_rfl
      inherits := Inherits.refl _
      keeps := fun _ _ _ _ => Keeps.refl _ _
      record := (Keeps.refl _ _).record
      heard := Or.inr <| Or.inr ⟨fun _ _ _ _ hc => hc, by rw [hpc]; exact fun hw => hw⟩
      pcOk := trivial
      reaper := by rw [hpc]; rfl
      retiring := fun task' p heq => by
        cases heq
        refine ⟨h.core.process_lt hte, fun id' t₁ ht₁ => ?_⟩
        exact h.core.process_ne hte (tasks_drop ht₁).2 (tasks_drop ht₁).1 }
    have hinv := hdrop.moves ht' hready hexited hmoves rfl rfl (by rw [hpc]; rfl)
      (fun _ hfork => (by cases hfork)) (fun _ hs => hs) (fun s hs => (by cases hs))
    simp only [hte, Option.map_some, Option.getD_some, Lifecycle.goto]
    rw [Function.update_comm hne]
    exact hinv

theorem Core.not_task_next (h : Core sys) : sys.tasks sys.nextTask = none := by
  cases hx : sys.tasks sys.nextTask with
  | none => rfl
  | some y => exact absurd (h.task_lt _ y hx) (lt_irrefl _)

/-- A new task, in a process of its own. -/
theorem Core.addTask (h : Core sys) {x : Task} (hok : TaskOk sys.history.table sys.nextTask x)
    (hready : x.blockedOn = none) (hexited : x.exited = false) (hpc : x.pc = .running)
    (hother : ∀ id t task p, sys.tasks id = some t → t.pc = .retiring task p → x.process ≠ p) :
    Core { sys with
      tasks := Function.update sys.tasks sys.nextTask (some x), nextTask := sys.nextTask + 1 } := by
  have hfresh := h.not_task_next
  obtain ⟨tr, htr⟩ := h.reaper_live
  have hreaper : reaperTask ≠ sys.nextTask := (h.task_lt _ tr htr).ne
  -- a property that the new task does not have
  have hiff : ∀ (P : Task → Prop), ¬P x → ∀ id', (∃ y, sys.tasks id' = some y ∧ P y) ↔
      ∃ y, Function.update sys.tasks sys.nextTask (some x) id' = some y ∧ P y := by
    intro P hP id'
    by_cases heq : id' = sys.nextTask
    · subst heq
      simp [hfresh, hP]
    · rw [Function.update_of_ne heq]
  exact {
    recorded := h.recorded
    noWaiters := h.noWaiters
    task := fun id' t₁ ht₁ => by
      rcases tasks_update_cases ht₁ with ⟨rfl, rfl⟩ | ⟨-, hold⟩
      · exact hok
      · exact h.task id' t₁ hold
    task_lt := fun id' t₁ ht₁ => by
      rcases tasks_update_cases ht₁ with ⟨rfl, -⟩ | ⟨-, hold⟩
      · exact Nat.lt_succ_self _
      · exact (h.task_lt id' t₁ hold).trans (Nat.lt_succ_self _)
    reaper_live := ⟨tr, (Function.update_of_ne hreaper ..).trans htr⟩
    retiring := fun id' t₁ task p ht₁ hretiring => by
      rcases tasks_update_cases ht₁ with ⟨rfl, rfl⟩ | ⟨-, hold⟩
      · cases hpc.symm.trans hretiring
      · obtain ⟨hlt, hprocess⟩ := h.retiring id' t₁ task p hold hretiring
        refine ⟨hlt, fun id₂ t₂ ht₂ => ?_⟩
        rcases tasks_update_cases ht₂ with ⟨rfl, rfl⟩ | ⟨-, hold₂⟩
        · exact hother id' t₁ task p hold hretiring
        · exact hprocess id₂ t₂ hold₂
    exitQueue_iff := fun id' =>
      (h.exitQueue_iff id').trans (hiff (fun y => y.exited = true) (by simp [hexited]) id')
    exitQueue_nodup := h.exitQueue_nodup
    childWait_iff := fun id' => (h.childWait_iff id').trans
      (hiff (fun y => y.blockedOn = some .childWait) (by simp [hready]) id')
    childWait_nodup := h.childWait_nodup
    reaperWait_of_blocked := fun t₁ ht₁ => h.reaperWait_of_blocked t₁
      ((Function.update_of_ne hreaper ..).symm.trans ht₁)
    reaperWait_of_ready := fun t₁ ht₁ => h.reaperWait_of_ready t₁
      ((Function.update_of_ne hreaper ..).symm.trans ht₁)
    not_lost := fun id' t₁ target ht₁ hblocked hwaiting hcollectible => by
      rcases tasks_update_cases ht₁ with ⟨rfl, rfl⟩ | ⟨-, hold⟩
      · cases hready.symm.trans hblocked
      · obtain ⟨tr', htr', hwakes⟩ := h.not_lost id' t₁ target hold hblocked hwaiting hcollectible
        exact ⟨tr', (Function.update_of_ne hreaper ..).trans htr', hwakes⟩ }

/-- The first half of `fork`: the child's address space is new. -/
theorem Inv.registerSpace (h : Inv sys) (ht : sys.tasks id = some t) (hready : t.blockedOn = none)
    (hexited : t.exited = false) (hpc : t.pc = .running) : Inv (sys.registerSpace id t) := by
  have hmoves : Moves sys id t sys.history (.forking sys.nextSpace) := {
    recorded := h.core.recorded
    nextId := le_rfl
    inherits := Inherits.refl _
    keeps := fun _ _ _ _ => Keeps.refl _ _
    record := (Keeps.refl _ _).record
    heard := Or.inr <| Or.inr ⟨fun _ _ _ _ hc => hc, by rw [hpc]; exact fun hw => hw⟩
    pcOk := trivial
    reaper := by rw [hpc]; rfl
    retiring := fun _ _ hretiring => absurd hretiring (by simp) }
  have hspaces : Spaces (sys.registerSpace id t) := {
    space_lt := fun p s hs => (h.spaces.space_lt p s hs).trans (Nat.lt_succ_self _)
    space_unique := h.spaces.space_unique
    forking := fun id' t₁ s ht₁ hfork => by
      rcases tasks_update_cases ht₁ with ⟨rfl, rfl⟩ | ⟨-, hold⟩
      · cases hfork
        exact ⟨Nat.lt_succ_self _, fun p hp => absurd (h.spaces.space_lt p _ hp) (lt_irrefl _)⟩
      · obtain ⟨hlt, hfresh⟩ := h.spaces.forking id' t₁ s hold hfork
        exact ⟨hlt.trans (Nat.lt_succ_self _), hfresh⟩
    forking_unique := fun id₁ id₂ t₁ t₂ s ht₁ hpc₁ ht₂ hpc₂ => by
      rcases tasks_update_cases ht₁ with ⟨hid₁, rfl⟩ | ⟨-, hold₁⟩ <;>
        rcases tasks_update_cases ht₂ with ⟨hid₂, rfl⟩ | ⟨-, hold₂⟩
      · exact hid₁.trans hid₂.symm
      · cases hpc₁
        exact absurd (h.spaces.forking id₂ t₂ _ hold₂ hpc₂).1 (lt_irrefl _)
      · cases hpc₂
        exact absurd (h.spaces.forking id₁ t₁ _ hold₁ hpc₁).1 (lt_irrefl _)
      · exact h.spaces.forking_unique id₁ id₂ t₁ t₂ s hold₁ hpc₁ hold₂ hpc₂
    toRelease := fun id' t₁ s ht₁ hs => by
      rcases tasks_update_cases ht₁ with ⟨rfl, rfl⟩ | ⟨-, hold⟩
      · cases hs
      · exact h.spaces.toRelease id' t₁ s hold hs }
  have hstatuses : Statuses (sys.goto id t (.forking sys.nextSpace)) :=
    h.statuses.moves ht rfl (Inherits.refl _) (by rw [hpc]; rfl)
  exact ⟨(h.core.moves ht hready hexited hmoves).relog _ _ _ _, hspaces,
    hstatuses.of_samePcs hstatuses.recorded rfl (fun _ _ => rfl) rfl (SamePcs.refl _)⟩

/-- The history behind a new child. -/
theorem perform_createChild {h : History} {parent : ℕ} {r : ProcessControlBlock}
    (hids : h.table.IdsOk)
    (hr : h.table.process parent = some r) (space : Option ℕ) (thread : ℕ) :
    h.perform (.createChild parent space thread) = { h with
      table := (h.table.createChild parent space thread).2
      creator := Function.update h.creator h.table.nextId (some parent)
      space := Function.update h.space h.table.nextId space } := by
  obtain ⟨t', hcreate, -⟩ := hids.createChild hr space thread
  rw [History.perform, hcreate]
  simp only [History.tableAfter, hcreate]

/-- The forking task goes on. -/
theorem Inv.forkMoves (h : Inv sys) (ht : sys.tasks id = some t) (hexited : t.exited = false)
    {space : ℕ} (hpc : t.pc = .forking space) :
    Moves sys id t (sys.history.perform (.createChild t.process (some space) sys.nextTask))
      .running := by
  obtain ⟨r, hr, -, -, hstatus⟩ := (h.core.task id t ht).record
  have hids := h.core.recorded.ids
  have hrunning : ∀ r', sys.history.table.process t.process = some r' → r'.exitStatus = none := by
    intro r' hr'
    cases hr.symm.trans hr'
    rw [hexited] at hstatus
    exact Option.isNone_iff_eq_none.mp (by simpa using hstatus)
  have hrecorded := h.core.recorded.step_createChild (some space) sys.nextTask hrunning
  obtain ⟨t', hcreate, -, hnext, -⟩ := hids.createChild hr (some space) sys.nextTask
  have hkeep := keeps_createChild hids hr (some space) sys.nextTask
  rw [perform_createChild hids hr] at hrecorded ⊢
  exact {
    recorded := hrecorded
    nextId := by
      rw [hcreate]
      exact hnext ▸ Nat.le_succ _
    inherits := (hkeep 0).2.2
    keeps := fun _ t' _ _ => (hkeep t'.process).1
    record := (hkeep t.process).1.record
    heard := Or.inr <| Or.inr ⟨fun _ t' _ => (hkeep t'.process).2.1, by
      rw [hpc]
      exact fun hw => hw⟩
    pcOk := trivial
    reaper := by rw [hpc]; rfl
    retiring := fun _ _ hretiring => absurd hretiring (by simp) }

/-- The child's task fits its new process. -/
theorem Core.taskOk_child (h : Core sys) (ht : sys.tasks id = some t) (space : ℕ) :
    TaskOk (sys.history.perform (.createChild t.process (some space) sys.nextTask)).table
      sys.nextTask
      { process := sys.history.table.nextId, space := some space } := by
  obtain ⟨r, hr, -⟩ := (h.task id t ht).record
  have hids := h.recorded.ids
  obtain ⟨t', hcreate, -, -, -, hprocess⟩ := hids.createChild hr (some space) sys.nextTask
  obtain ⟨tr, htr⟩ := h.reaper_live
  have hnotReaper : sys.nextTask ≠ reaperTask := (h.task_lt _ tr htr).ne'
  have hne : t.process ≠ sys.history.table.nextId := (hids.lt_of_process hr).ne
  have hnew : t'.process sys.history.table.nextId =
      some (.new sys.history.table.nextId (some t.process) (some space) sys.nextTask) := by
    rw [hprocess, Function.update_of_ne hne.symm, Function.update_self]
  rw [perform_createChild hids hr, hcreate]
  exact {
    record := ⟨_, hnew, rfl, rfl, rfl⟩
    pcOk := trivial
    exited := fun hex => absurd hex (by simp)
    childWait := fun hblocked => absurd hblocked (by simp)
    reaperWait := fun hblocked => absurd hblocked (by simp)
    reaper := by simp [Pc.ofReaper, Pc.willWake, hnotReaper] }

/-- The space of a forking task becomes the space of a new process. -/
theorem Spaces.forked (h : Spaces sys) (ht : sys.tasks id = some t) {space : ℕ}
    (hpc : t.pc = .forking space) {child : Task} (hchild : child.pc = .running) {history : History}
    {process : ℕ} (hspace : history.space = Function.update sys.history.space process (some space))
    (htaken : history.taken = sys.history.taken) :
    Spaces { sys with
      history
      tasks := Function.update (Function.update sys.tasks id (some { t with pc := .running }))
        sys.nextTask
        (some child)
      nextTask := sys.nextTask + 1 } := by
  obtain ⟨hlt, hfresh⟩ := h.forking id t space ht hpc
  -- neither of the two tasks holds or releases a space
  have htasks : ∀ {id' t₁},
    Function.update (Function.update sys.tasks id (some { t with pc := .running }))
      sys.nextTask (some child) id' = some t₁ → t₁.pc ≠ .running → id' ≠ id ∧
        sys.tasks id' = some t₁ := by
    intro id' t₁ ht₁ hbusy
    rcases tasks_update_cases ht₁ with ⟨-, rfl⟩ | ⟨-, hold⟩
    · exact absurd hchild hbusy
    · rcases tasks_update_cases hold with ⟨-, rfl⟩ | ⟨hne, hold'⟩
      · exact absurd rfl hbusy
      · exact ⟨hne, hold'⟩
  have hforking : ∀ {id' t₁ s}, Function.update (Function.update sys.tasks id
      (some { t with pc := .running })) sys.nextTask (some child) id' = some t₁ →
        t₁.pc = .forking s →
      id' ≠ id ∧ sys.tasks id' = some t₁ := fun ht₁ hfork => htasks ht₁ (by simp [hfork])
  have hspaceOf : ∀ {p s}, history.space p = some s →
      p = process ∧ s = space ∨ p ≠ process ∧ sys.history.space p = some s := by
    intro p s hs
    rw [hspace] at hs
    by_cases hp : p = process
    · rw [hp, Function.update_self] at hs
      exact Or.inl ⟨hp, (Option.some.inj hs).symm⟩
    · rw [Function.update_of_ne hp] at hs
      exact Or.inr ⟨hp, hs⟩
  exact {
    space_lt := fun p s hs => by
      rcases hspaceOf hs with ⟨-, rfl⟩ | ⟨-, hold⟩
      · exact hlt
      · exact h.space_lt p s hold
    space_unique := fun p q s hp hq => by
      rcases hspaceOf hp with ⟨rfl, rfl⟩ | ⟨-, hp'⟩ <;> rcases hspaceOf hq with ⟨rfl, hs⟩ | ⟨-, hq'⟩
      · rfl
      · exact absurd hq' (hfresh q)
      · exact absurd (hs ▸ hp') (hfresh p)
      · exact h.space_unique p q s hp' hq'
    forking := fun id' t₁ s ht₁ hfork => by
      obtain ⟨hne, hold⟩ := hforking ht₁ hfork
      obtain ⟨hlt', hfresh'⟩ := h.forking id' t₁ s hold hfork
      refine ⟨hlt', fun p hp => ?_⟩
      rcases hspaceOf hp with ⟨-, rfl⟩ | ⟨-, hp'⟩
      · exact hne (h.forking_unique id' id t₁ t s hold hfork ht hpc)
      · exact hfresh' p hp'
    forking_unique := fun id₁ id₂ t₁ t₂ s ht₁ hpc₁ ht₂ hpc₂ =>
      h.forking_unique id₁ id₂ t₁ t₂ s (hforking ht₁ hpc₁).2 hpc₁ (hforking ht₂ hpc₂).2 hpc₂
    toRelease := fun id' t₁ s ht₁ hs => by
      refine htaken ▸ h.toRelease id' t₁ s (htasks ht₁ fun hrunning => ?_).2 hs
      rw [hrunning] at hs
      cases hs }

/-- A task that holds no status, in a process that nobody has collected. -/
theorem Statuses.addTask (h : Statuses sys) (hfresh : sys.tasks sys.nextTask = none) {x : Task}
    (hpc : x.pc = .running) (hprocess : ∀ c ∈ sys.history.collected, x.process ≠ c) :
    Statuses { sys with
      tasks := Function.update sys.tasks sys.nextTask (some x), nextTask := sys.nextTask + 1 } := by
  have hholds : ∀ {id' t₁ c s}, Function.update sys.tasks sys.nextTask (some x) id' = some t₁ →
      t₁.pc.holds = some (c, s) → sys.tasks id' = some t₁ := by
    intro id' t₁ c s ht₁ hheld
    rcases tasks_update_cases ht₁ with ⟨-, rfl⟩ | ⟨-, hold⟩
    · rw [hpc] at hheld
      cases hheld
    · exact hold
  exact {
    recorded := h.recorded
    held := fun id' t₁ c s ht₁ hheld => h.held id' t₁ c s (hholds ht₁ hheld) hheld
    held_unique := fun id₁ id₂ t₁ t₂ c s s' ht₁ hheld₁ ht₂ hheld₂ =>
      h.held_unique id₁ id₂ t₁ t₂ c s s' (hholds ht₁ hheld₁) hheld₁ (hholds ht₂ hheld₂) hheld₂
    returned := h.returned
    returned_nodup := h.returned_nodup
    covered := fun c hc => by
      refine (h.covered c hc).imp_right fun ⟨id', t₁, s, ht₁, hheld⟩ => ⟨id', t₁, s, ?_, hheld⟩
      have hne : id' ≠ sys.nextTask := by
        rintro rfl
        exact absurd (hfresh.symm.trans ht₁) (by simp)
      exact (Function.update_of_ne hne ..).trans ht₁
    taskless := fun c hc id' t₁ ht₁ => by
      rcases tasks_update_cases ht₁ with ⟨-, rfl⟩ | ⟨-, hold⟩
      · exact hprocess c hc
      · exact h.taskless c hc id' t₁ hold }

/-- The second half of `fork`: the address space goes to the child's process, and the child's task
starts. -/
theorem Inv.spawnForked (h : Inv sys) (ht : sys.tasks id = some t) (hready : t.blockedOn = none)
    (hexited : t.exited = false) {space : ℕ} (hpc : t.pc = .forking space) :
    Inv (sys.spawnForked id t space) := by
  obtain ⟨r, hr, -⟩ := (h.core.task id t ht).record
  have hperform := perform_createChild h.core.recorded.ids hr (some space) sys.nextTask
  have hcollected : (sys.history.perform
      (.createChild t.process (some space) sys.nextTask)).collected = sys.history.collected := by
    rw [hperform]
  have htaken : (sys.history.perform
      (.createChild t.process (some space) sys.nextTask)).taken = sys.history.taken := by
    rw [hperform]
  have hmoves := h.forkMoves ht hexited hpc
  have hcore := h.core.moves ht hready hexited hmoves
  have hstatuses : Statuses { sys with
      history := sys.history.perform (.createChild t.process (some space) sys.nextTask)
      tasks := Function.update sys.tasks id (some { t with pc := .running }) } :=
    h.statuses.moves ht hcollected hmoves.inherits (by rw [hpc]; rfl)
  refine ⟨hcore.addTask (h.core.taskOk_child ht space) rfl rfl rfl
    fun id' t₁ task p ht₁ hretiring => ?_,
    h.spaces.forked ht hpc rfl (congrArg History.space hperform) htaken,
    hstatuses.addTask hcore.not_task_next rfl fun c hc => ?_⟩
  · rcases tasks_update_cases ht₁ with ⟨rfl, rfl⟩ | ⟨-, hold⟩
    · cases hretiring
    · exact (h.core.retiring id' t₁ task p hold hretiring).1.ne'
  · -- a collected process is older than the new one
    replace hc : c ∈ sys.history.collected := hcollected ▸ hc
    exact (h.core.recorded.collected_old c hc).1.ne'

/-! ## Exit -/

theorem leaveAll_update {tasks : Tasks} {x : Task} (queue : Queue) (hready : x.blockedOn = none) :
    leaveAll queue (Function.update tasks id (some x)) =
      Function.update (leaveAll queue tasks) id (some x) := by
  funext id'
  by_cases heq : id' = id
  · subst heq
    rw [leaveAll, Function.update_self, Function.update_self, Option.map_some,
      Task.leave_of_ready queue hready]
  · rw [leaveAll, Function.update_of_ne heq, Function.update_of_ne heq, leaveAll]

/-- Everybody is woken up when a task exits. -/
def awake (tasks : Tasks) : Tasks :=
  leaveAll .reaperWait (leaveAll .childWait tasks)

theorem awake_ready {tasks : Tasks} (hx : awake tasks id = some t) : t.blockedOn = none := by
  obtain ⟨t₁, ht₁, rfl⟩ := leaveAll_cases hx
  obtain ⟨t₀, -, rfl⟩ := leaveAll_cases ht₁
  cases hblocked : ((t₀.leave .childWait).leave .reaperWait).blockedOn with
  | none => rfl
  | some queue =>
    obtain ⟨hblocked, hne⟩ := (Task.leave_blockedOn_iff _ _ _).mp hblocked
    obtain ⟨-, hne'⟩ := (Task.leave_blockedOn_iff _ _ _).mp hblocked
    cases queue with
    | childWait => exact absurd rfl hne'
    | reaperWait => exact absurd rfl hne

theorem samePcs_awake (tasks : Tasks) : SamePcs tasks (awake tasks) :=
  fun id => (samePcs_leaveAll .reaperWait _ id).trans (samePcs_leaveAll .childWait tasks id)

theorem Core.awake (h : Core sys) :
    Core { sys with tasks := awake sys.tasks, childWait := [], reaperWait := [] } := by
  have hcore := h.wakeParents.1.wakeReaper
  rw [h.wakeParents.1.wakeReaper_eq, h.wakeParents_eq] at hcore
  exact hcore

/-- The state `exit_current` leaves. -/
theorem Core.exitCurrent_eq (h : Core sys) (ht : sys.tasks id = some t)
    (hready : t.blockedOn = none)
    {status : ℤ} {h' : History}
    (hh' : h' = (sys.history.perform (.reparentChildren t.process)).perform
      (.exit t.process status))
    (hnoWaiters : NoWaiters h'.table) :
    sys.exitCurrent id t status = { sys with
      history := h'
      tasks := Function.update (Lifecycle.awake sys.tasks) id (some { t with exited := true })
      exitQueue := sys.exitQueue ++ [id]
      childWait := []
      reaperWait := []
      status := Function.update sys.status t.process (some status) } := by
  set x : Task := { t with exited := true } with hx
  have hchild : ∀ id', id' ∈ sys.childWait ↔
      ∃ y, Function.update sys.tasks id (some x) id' = some y ∧ y.blockedOn = some .childWait :=
    fun id' => (h.childWait_iff id').trans
      (exists_update_iff (x := x) (P := fun y => y.blockedOn = some .childWait) ht Iff.rfl id').symm
  have hreadyX : x.blockedOn = none := hready
  have hwakeParents : wakeAll sys.childWait (Function.update sys.tasks id (some x)) =
      ([], Function.update (leaveAll .childWait sys.tasks) id (some x)) := by
    rw [wakeAll_eq h.childWait_nodup hchild, leaveAll_update .childWait hreadyX]
  have htw : leaveAll .childWait sys.tasks id = some t := by
    rw [leaveAll, ht, Option.map_some, Task.leave_of_ready _ hready]
  have hreaper : ∀ id', id' ∈ sys.reaperWait ↔
      ∃ y, Function.update (leaveAll .childWait sys.tasks) id (some x) id' = some y ∧
        y.blockedOn = some .reaperWait := by
    intro id'
    rw [h.reaperWait_iff id']
    refine Iff.trans ?_
      (exists_update_iff (x := x) (P := fun y => y.blockedOn = some .reaperWait) htw Iff.rfl
        id').symm
    exact (exists_leaveAll_iff (fun y => by simp [Task.leave_blockedOn_iff]) id').symm
  have hwakeReaper : wakeOne sys.reaperWait
      (Function.update (leaveAll .childWait sys.tasks) id (some x)) =
      ([], Function.update (Lifecycle.awake sys.tasks) id (some x)) := by
    rw [wakeOne_eq h.reaperWait_length hreaper, leaveAll_update .reaperWait hreadyX]
    rfl
  have hwaiters : ((h'.table.process t.process).map ProcessControlBlock.childWaiters).getD [] =
      [] := by
    cases hr' : h'.table.process t.process with
    | none => rfl
    | some r' => simpa using hnoWaiters t.process r' hr'
  rw [hh'] at hwaiters ⊢
  simp only [exitCurrent, Lifecycle.wakeParents, Lifecycle.wakeReaper, Lifecycle.perform,
    hwakeParents, hwakeReaper, hwaiters, List.foldl_nil, ← hx]

/-- The exit of a task that nobody is blocked beside. -/
theorem Core.exit (h : Core sys) (hnone : ∀ id' t', sys.tasks id' = some t' → t'.blockedOn = none)
    (ht : sys.tasks id = some t) (hexited : t.exited = false) (hpc : t.pc = .running) {h' : History}
    {status : ℤ} (hrec : h'.Recorded)
    (hexit : Exited sys.history.table h'.table t.process status) :
    Core { sys with
      history := h'
      tasks := Function.update sys.tasks id (some { t with exited := true })
      exitQueue := sys.exitQueue ++ [id] } := by
  have hok := h.task id t ht
  have hready := hnone id t ht
  have hnotReaper : reaperTask ≠ id := by
    intro heq
    have hreaper := hok.reaper.mpr heq.symm
    rw [hpc] at hreaper
    cases hreaper
  have hready' : ∀ id' t₁, Function.update sys.tasks id (some { t with exited := true }) id' =
      some t₁ → t₁.blockedOn = none := by
    intro id' t₁ ht₁
    rcases tasks_update_cases ht₁ with ⟨-, rfl⟩ | ⟨-, hold⟩
    · exact hready
    · exact hnone id' t₁ hold
  exact {
    recorded := hrec
    noWaiters := hexit.noWaiters h.noWaiters
    task := fun id' t₁ ht₁ => by
      rcases tasks_update_cases ht₁ with ⟨rfl, rfl⟩ | ⟨hne, hold⟩
      · obtain ⟨r, hr, hthreads, hspace, -⟩ := hok.record
        obtain ⟨r', hr', hthreads', hspace', hstatus'⟩ := hexit.record r hr
        exact {
          record := ⟨r', hr', hthreads'.trans hthreads, hspace'.trans hspace, by rw [hstatus']; rfl⟩
          pcOk := by
            show PcOk h'.table t.process t.pc
            rw [hpc]
            trivial
          exited := fun _ => ⟨hpc, hready⟩
          childWait := fun hblocked => absurd (hready.symm.trans hblocked) (by simp)
          reaperWait := fun hblocked => absurd (hready.symm.trans hblocked) (by simp)
          reaper := hok.reaper }
      · exact (h.task id' t₁ hold).keeps (hexit.keeps t₁.process (h.process_ne ht hold hne))
    task_lt := fun id' t₁ ht₁ => by
      rcases tasks_update_cases ht₁ with ⟨rfl, rfl⟩ | ⟨-, hold⟩
      · exact h.task_lt id' t ht
      · exact h.task_lt id' t₁ hold
    reaper_live := by
      obtain ⟨tr, htr⟩ := h.reaper_live
      exact ⟨tr, (Function.update_of_ne hnotReaper ..).trans htr⟩
    retiring := fun id' t₁ task p ht₁ hretiring => by
      obtain ⟨t₀, ht₀, hretiring₀⟩ := (exists_update_iff (x := { t with exited := true })
        (P := fun y => y.pc = .retiring task p) ht Iff.rfl id').mp ⟨t₁, ht₁, hretiring⟩
      obtain ⟨hlt, hother⟩ := h.retiring id' t₀ task p ht₀ hretiring₀
      refine ⟨hexit.nextId ▸ hlt, fun id₂ t₂ ht₂ => ?_⟩
      rcases tasks_update_cases ht₂ with ⟨rfl, rfl⟩ | ⟨-, hold₂⟩
      · exact hother id₂ t ht
      · exact hother id₂ t₂ hold₂
    exitQueue_iff := fun id' => by
      rw [List.mem_append, List.mem_singleton, h.exitQueue_iff id']
      by_cases heq : id' = id
      · subst heq
        simp
      · simp [heq]
    exitQueue_nodup := by
      rw [← List.concat_eq_append]
      exact h.exitQueue_nodup.concat (h.not_mem_exitQueue ht hexited)
    childWait_iff := fun id' => (h.childWait_iff id').trans
      (exists_update_iff (x := { t with exited := true })
        (P := fun y => y.blockedOn = some .childWait) ht Iff.rfl id').symm
    childWait_nodup := h.childWait_nodup
    reaperWait_of_blocked := fun t₁ ht₁ hblocked =>
      absurd ((hready' reaperTask t₁ ht₁).symm.trans hblocked) (by simp)
    reaperWait_of_ready := fun t₁ ht₁ hfree =>
      h.reaperWait_of_ready t₁ ((Function.update_of_ne hnotReaper ..).symm.trans ht₁) hfree
    not_lost := fun id' t₁ _ ht₁ hblocked _ _ =>
      absurd ((hready' id' t₁ ht₁).symm.trans hblocked) (by simp) }

theorem Inv.exitCurrent (h : Inv sys) (ht : sys.tasks id = some t) (hready : t.blockedOn = none)
    (hexited : t.exited = false) (hpc : t.pc = .running) (hinit : t.process ≠ initPid)
    (status : ℤ) :
    Inv (sys.exitCurrent id t status) := by
  obtain ⟨r, hr, -, -, hstatus⟩ := (h.core.task id t ht).record
  have hrunning : r.exitStatus = none := by
    rw [hexited] at hstatus
    exact Option.isNone_iff_eq_none.mp (by simpa using hstatus)
  obtain ⟨hrec, hexit⟩ := exited_perform h.core.recorded status hr hrunning hinit
  set h' := (sys.history.perform (.reparentChildren t.process)).perform (.exit t.process status)
    with hh'
  rw [h.core.exitCurrent_eq ht hready hh' (hexit.noWaiters h.core.noWaiters)]
  have hawake : Lifecycle.awake sys.tasks id = some t := by
    rw [Lifecycle.awake, leaveAll, leaveAll, ht, Option.map_some, Option.map_some,
      Task.leave_of_ready _ hready, Task.leave_of_ready _ hready]
  have hcore := h.core.awake.exit (fun _ _ hx => awake_ready hx) hawake hexited hpc hrec hexit
  have hsame : SamePcs sys.tasks
      (Function.update (Lifecycle.awake sys.tasks) id (some { t with exited := true })) := by
    intro id'
    have hupdate := samePcs_update (x := { t with exited := true }) hawake rfl rfl id'
    exact hupdate.trans (samePcs_awake sys.tasks id')
  refine ⟨hcore.relog _ _ _ _, h.spaces.of_samePcs rfl rfl rfl hsame,
    h.statuses.of_samePcs (fun p r' s hr' hs => ?_) rfl (fun c hc => ?_) rfl hsame⟩
  · show Function.update sys.status t.process (some status) p = some s
    rcases hexit.status p r' s hr' hs with ⟨rfl, rfl⟩ | ⟨r₀, hr₀, hs₀⟩
    · exact Function.update_self ..
    · -- the status was recorded before, and so not by the task that exits now
      have hne : p ≠ t.process := by
        rintro rfl
        cases hr.symm.trans hr₀
        rw [hrunning] at hs₀
        cases hs₀
      exact (Function.update_of_ne hne ..).trans (h.statuses.recorded p r₀ s hr₀ hs₀)
  · exact Function.update_of_ne (h.statuses.taskless c hc id t ht).symm ..

end Lifecycle

end SaeOS.Process
