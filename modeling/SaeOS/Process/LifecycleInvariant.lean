import SaeOS.Process.LifecycleTable

/-!
# The invariant of the waiting protocol

What holds between any two sections, in three parts that depend on different fields of the state:
`Core`, which ties tasks, queues and the process table together and says that no waiting parent is
forgotten; `Spaces`, which says who may still use an address space; and `Statuses`, which says where
a collected status is on its way to its caller.

Most sections change the table and move one task to another program counter. `Moves` lists what
such a section owes the rest of the system, and one lemma per part carries the invariant over it.
-/

namespace SaeOS.Process

namespace Pc

/-- The status a task holds between collecting and returning it. -/
def holds : Pc → Option (ℕ × ℤ)
  | .collected child status _ => some (child, status)
  | .taking (.wait child status) => some (child, status)
  | .releasing _ (.wait child status) => some (child, status)
  | _ => none

/-- The address spaces a task is about to release. -/
def toRelease : Pc → List ℕ
  | .releasing spaces _ => spaces
  | _ => []

/-- The reaper has retired a task and is on its way to wake the waiting parents. -/
def willWake : Pc → Bool
  | .taking .reaper => true
  | .releasing _ .reaper => true
  | .waking => true
  | _ => false

/-- The program counters of the reaper. -/
def ofReaper : Pc → Bool
  | .reaperWaiting => true
  | .reaping => true
  | .retiring _ _ => true
  | pc => pc.willWake

/-- Neither forking nor retiring: nothing is tied to the program counter but what `PcOk` says. -/
def plain : Pc → Bool
  | .forking _ => false
  | .retiring _ _ => false
  | _ => true

theorem ne_forking {pc : Pc} (h : pc.plain = true) (space : ℕ) : pc ≠ .forking space := by
  rintro rfl
  cases h

theorem ne_retiring {pc : Pc} (h : pc.plain = true) (task process : ℕ) :
    pc ≠ .retiring task process := by
  rintro rfl
  cases h

end Pc

/-- What a task at a program counter relies on. -/
def PcOk (table : ProcessTable) (process : ℕ) : Pc → Prop
  | .waiting target => HasSuchChild table process target
  | .rechecking target => Collectible table process target
  | .collecting target child => Matches target child ∧ FinishedChild table process child
  | .collected _ _ waiters => waiters = []
  | _ => True

/-- A task and its process. -/
structure TaskOk (table : ProcessTable) (id : ℕ) (t : Task) : Prop where
  record : ∃ r, table.process t.process = some r ∧ r.threads = [id] ∧
    r.addressSpace = t.space ∧ r.exitStatus.isSome = t.exited
  pcOk : PcOk table t.process t.pc
  exited : t.exited = true → t.pc = .running ∧ t.blockedOn = none
  childWait : t.blockedOn = some .childWait → ∃ target, t.pc = .waiting target
  reaperWait : t.blockedOn = some .reaperWait → t.pc = .reaperWaiting
  reaper : t.pc.ofReaper = true ↔ id = Lifecycle.reaperTask

variable {t t' : ProcessTable} {p id : ℕ}

theorem PcOk.keeps {pc : Pc} (h : PcOk t p pc) (hkeep : Keeps t t' p) : PcOk t' p pc := by
  cases pc with
  | waiting target => exact HasSuchChild.keeps h hkeep
  | rechecking target => exact Collectible.keeps h hkeep
  | collecting target child => exact ⟨h.1, hkeep.finished child h.2⟩
  | collected child status waiters => exact h
  | _ => trivial

theorem TaskOk.keepsRecord {task : Task} (h : TaskOk t id task)
    (hkeep : SameRecord t t' task.process) :
    ∃ r, t'.process task.process = some r ∧ r.threads = [id] ∧
      r.addressSpace = task.space ∧ r.exitStatus.isSome = task.exited := by
  obtain ⟨r, hr, hthreads, hspace, hexited⟩ := h.record
  obtain ⟨r', hr', hthreads', hspace', hstatus'⟩ := hkeep r hr (by rw [hthreads]; simp)
  exact ⟨r', hr', hthreads'.trans hthreads, hspace'.trans hspace, by rw [hstatus', hexited]⟩

theorem TaskOk.keeps {task : Task} (h : TaskOk t id task) (hkeep : Keeps t t' task.process) :
    TaskOk t' id task where
  record := h.keepsRecord hkeep.record
  pcOk := h.pcOk.keeps hkeep
  exited := h.exited
  childWait := h.childWait
  reaperWait := h.reaperWait
  reaper := h.reaper

/-- A task blocked on a queue becomes runnable, any other stays as it is. -/
def Task.leave (queue : Queue) (task : Task) : Task :=
  if task.blockedOn = some queue then { task with blockedOn := none } else task

namespace Task

variable (queue : Queue) (task : Task)

theorem leave_of_ready {task : Task} (h : task.blockedOn = none) : task.leave queue = task := by
  rw [leave, h, if_neg (by simp)]

@[simp] theorem leave_process : (task.leave queue).process = task.process := by
  unfold leave
  split_ifs <;> rfl

@[simp] theorem leave_space : (task.leave queue).space = task.space := by
  unfold leave
  split_ifs <;> rfl

@[simp] theorem leave_exited : (task.leave queue).exited = task.exited := by
  unfold leave
  split_ifs <;> rfl

@[simp] theorem leave_pc : (task.leave queue).pc = task.pc := by
  unfold leave
  split_ifs <;> rfl

theorem leave_blockedOn_iff (other : Queue) :
    (task.leave queue).blockedOn = some other ↔ task.blockedOn = some other ∧ other ≠ queue := by
  unfold leave
  split_ifs with h
  · simp [h, eq_comm]
  · constructor
    · intro hother
      exact ⟨hother, fun heq => h (heq ▸ hother)⟩
    · exact And.left

end Task

theorem TaskOk.leave {task : Task} (h : TaskOk t id task) (queue : Queue) :
    TaskOk t id (task.leave queue) where
  record := by simpa using h.record
  pcOk := by simpa using h.pcOk
  exited hexited := by
    rw [Task.leave_exited] at hexited
    rw [Task.leave_of_ready queue (h.exited hexited).2]
    exact h.exited hexited
  childWait hblocked := by
    rw [Task.leave_pc]
    exact h.childWait ((Task.leave_blockedOn_iff queue task .childWait).mp hblocked).1
  reaperWait hblocked := by
    rw [Task.leave_pc]
    exact h.reaperWait ((Task.leave_blockedOn_iff queue task .reaperWait).mp hblocked).1
  reaper := by simpa using h.reaper

namespace Lifecycle

/-- A waiting parent is going to be woken up by a section in progress. -/
def WakePending (sys : Lifecycle) : Prop :=
  ∃ t, sys.tasks reaperTask = some t ∧ t.pc.willWake = true

/-- Tasks, queues and the process table agree, and no waiting parent is forgotten. -/
structure Core (sys : Lifecycle) : Prop where
  recorded : sys.history.Recorded
  noWaiters : NoWaiters sys.history.table
  task : ∀ id t, sys.tasks id = some t → TaskOk sys.history.table id t
  task_lt : ∀ id t, sys.tasks id = some t → id < sys.nextTask
  reaper_live : ∃ t, sys.tasks reaperTask = some t
  /-- A process whose exited task is being retired has no other task. -/
  retiring : ∀ id t task p, sys.tasks id = some t → t.pc = .retiring task p →
    p < sys.history.table.nextId ∧ ∀ id' t', sys.tasks id' = some t' → t'.process ≠ p
  exitQueue_iff : ∀ id, id ∈ sys.exitQueue ↔ ∃ t, sys.tasks id = some t ∧ t.exited = true
  exitQueue_nodup : sys.exitQueue.Nodup
  childWait_iff : ∀ id, id ∈ sys.childWait ↔
    ∃ t, sys.tasks id = some t ∧ t.blockedOn = some .childWait
  childWait_nodup : sys.childWait.Nodup
  /-- The reaper is on its queue exactly if it is blocked, and then there is nothing to retire. -/
  reaperWait_of_blocked : ∀ t, sys.tasks reaperTask = some t → t.blockedOn = some .reaperWait →
    sys.reaperWait = [reaperTask] ∧ sys.exitQueue = []
  reaperWait_of_ready : ∀ t, sys.tasks reaperTask = some t → t.blockedOn = none →
    sys.reaperWait = []
  not_lost : ∀ id t target, sys.tasks id = some t → t.blockedOn = some .childWait →
    t.pc = .waiting target → Collectible sys.history.table t.process target → sys.WakePending

/-- An address space belongs to at most one process, and one that is to be released to none. -/
structure Spaces (sys : Lifecycle) : Prop where
  space_lt : ∀ p s, sys.history.space p = some s → s < sys.nextSpace
  space_unique : ∀ p q s, sys.history.space p = some s → sys.history.space q = some s → p = q
  forking : ∀ id t s, sys.tasks id = some t → t.pc = .forking s →
    s < sys.nextSpace ∧ ∀ p, sys.history.space p ≠ some s
  forking_unique : ∀ id id' t t' s, sys.tasks id = some t → t.pc = .forking s →
    sys.tasks id' = some t' → t'.pc = .forking s → id = id'
  toRelease : ∀ id t s, sys.tasks id = some t → s ∈ t.pc.toRelease → s ∈ sys.history.taken

/-- A collected status is held by one task or has been returned, once. -/
structure Statuses (sys : Lifecycle) : Prop where
  recorded : ∀ p r s, sys.history.table.process p = some r → r.exitStatus = some s →
    sys.status p = some s
  held : ∀ id t c s, sys.tasks id = some t → t.pc.holds = some (c, s) →
    c ∈ sys.history.collected ∧ sys.status c = some s ∧ c ∉ sys.returned.map Prod.fst
  held_unique : ∀ id id' t t' c s s', sys.tasks id = some t → t.pc.holds = some (c, s) →
    sys.tasks id' = some t' → t'.pc.holds = some (c, s') → id = id'
  returned : ∀ c s, (c, s) ∈ sys.returned → c ∈ sys.history.collected ∧ sys.status c = some s
  returned_nodup : (sys.returned.map Prod.fst).Nodup
  covered : ∀ c ∈ sys.history.collected, c ∈ sys.returned.map Prod.fst ∨
    ∃ id t s, sys.tasks id = some t ∧ t.pc.holds = some (c, s)
  taskless : ∀ c ∈ sys.history.collected, ∀ id t, sys.tasks id = some t → t.process ≠ c

variable {sys : Lifecycle} {t : Task} {id' : ℕ} {t₁ : Task}

/-! ## Reading the invariant -/

/-- Two tasks run in different processes. -/
theorem Core.process_ne (h : Core sys) (ht : sys.tasks id = some t) (ht₁ : sys.tasks id' = some t₁)
    (hne : id' ≠ id) : t₁.process ≠ t.process := by
  intro heq
  obtain ⟨r, hr, hthreads, -⟩ := (h.task id t ht).record
  obtain ⟨r₁, hr₁, hthreads₁, -⟩ := (h.task id' t₁ ht₁).record
  rw [heq, hr] at hr₁
  cases hr₁
  rw [hthreads] at hthreads₁
  exact hne (List.head_eq_of_cons_eq hthreads₁).symm

theorem Core.process_lt (h : Core sys) (ht : sys.tasks id = some t) :
    t.process < sys.history.table.nextId := by
  obtain ⟨r, hr, -⟩ := (h.task id t ht).record
  exact h.recorded.ids.lt_of_process hr

/-- A task that runs is not the one the reaper's queue or the exit queue holds. -/
theorem Core.not_mem_exitQueue (h : Core sys) (ht : sys.tasks id = some t)
    (hexited : t.exited = false) : id ∉ sys.exitQueue := by
  intro hmem
  obtain ⟨t', ht', hexited'⟩ := (h.exitQueue_iff id).mp hmem
  rw [ht] at ht'
  cases ht'
  rw [hexited] at hexited'
  cases hexited'

theorem Core.not_mem_childWait (h : Core sys) (ht : sys.tasks id = some t)
    (hready : t.blockedOn = none) : id ∉ sys.childWait := by
  intro hmem
  obtain ⟨t', ht', hblocked⟩ := (h.childWait_iff id).mp hmem
  rw [ht] at ht'
  cases ht'
  rw [hready] at hblocked
  cases hblocked

/-- `Core` does not depend on the logs. -/
theorem Core.relog (h : Core sys) (nextSpace : ℕ) (status : ℕ → Option ℤ)
    (returned : List (ℕ × ℤ)) (failed : List (ℕ × Option ℕ)) :
    Core { sys with nextSpace, status, returned, failed } :=
  ⟨h.recorded, h.noWaiters, h.task, h.task_lt, h.reaper_live, h.retiring, h.exitQueue_iff,
    h.exitQueue_nodup, h.childWait_iff, h.childWait_nodup, h.reaperWait_of_blocked,
    h.reaperWait_of_ready, h.not_lost⟩

/-! ## Sections that move one task -/

/-- What a section owes the other tasks: task `id` goes on at `pc`, and the table becomes that
of `h'`. By `heard` no parent is blocked, or a wake-up is to come, or no child finishes and a
wake-up that was to come still is. -/
structure Moves (sys : Lifecycle) (id : ℕ) (t : Task) (h' : History) (pc : Pc) : Prop where
  recorded : h'.Recorded
  nextId : sys.history.table.nextId ≤ h'.table.nextId
  inherits : Inherits sys.history.table h'.table
  keeps : ∀ id' t', sys.tasks id' = some t' → id' ≠ id →
    Keeps sys.history.table h'.table t'.process
  record : SameRecord sys.history.table h'.table t.process
  heard : (∀ id' t', sys.tasks id' = some t' → t'.blockedOn ≠ some .childWait) ∨
    id = reaperTask ∧ pc.willWake = true ∨
    (∀ id' t', sys.tasks id' = some t' → NoneFinishes sys.history.table h'.table t'.process) ∧
      (t.pc.willWake = true → pc.willWake = true)
  pcOk : PcOk h'.table t.process pc
  reaper : pc.ofReaper = t.pc.ofReaper
  retiring : ∀ task p, pc = .retiring task p → p < h'.table.nextId ∧
    ∀ id' t', sys.tasks id' = some t' → t'.process ≠ p

/-- A task other than the one that moves is as it was. -/
theorem tasks_update_cases {tasks : Tasks} {x : Task}
    (h : Function.update tasks id (some x) id' = some t₁) :
    id' = id ∧ t₁ = x ∨ id' ≠ id ∧ tasks id' = some t₁ := by
  by_cases heq : id' = id
  · rw [heq, Function.update_self] at h
    exact Or.inl ⟨heq, (Option.some.inj h).symm⟩
  · rw [Function.update_of_ne heq] at h
    exact Or.inr ⟨heq, h⟩

/-- A property of the tasks' program counters is one of the old ones if the moved task has it only
with its old one. -/
theorem exists_update_iff {tasks : Tasks} {x : Task} {P : Task → Prop} (ht : tasks id = some t)
    (hx : P x ↔ P t) (id' : ℕ) :
    (∃ t₁, Function.update tasks id (some x) id' = some t₁ ∧ P t₁) ↔
      ∃ t₁, tasks id' = some t₁ ∧ P t₁ := by
  by_cases heq : id' = id
  · subst heq
    simp [ht, hx]
  · rw [Function.update_of_ne heq]

theorem Core.moves (h : Core sys) (ht : sys.tasks id = some t) (hready : t.blockedOn = none)
    (hexited : t.exited = false) {h' : History} {pc : Pc} (hmoves : Moves sys id t h' pc) :
    Core { sys with
      history := h', tasks := Function.update sys.tasks id (some { t with pc }) } where
  recorded := hmoves.recorded
  noWaiters := h.noWaiters.inherits hmoves.inherits
  task id' t₁ ht₁ := by
    rcases tasks_update_cases ht₁ with ⟨rfl, rfl⟩ | ⟨hne, hold⟩
    · have hok := h.task id' t ht
      exact {
        record := hok.keepsRecord hmoves.record
        pcOk := hmoves.pcOk
        exited := fun hex => absurd (hexited.symm.trans hex) Bool.false_ne_true
        childWait := fun hblocked => absurd (hready.symm.trans hblocked) (by simp)
        reaperWait := fun hblocked => absurd (hready.symm.trans hblocked) (by simp)
        reaper := by
          show pc.ofReaper = true ↔ id' = reaperTask
          rw [hmoves.reaper]
          exact hok.reaper }
    · exact (h.task id' t₁ hold).keeps (hmoves.keeps id' t₁ hold hne)
  task_lt id' t₁ ht₁ := by
    rcases tasks_update_cases ht₁ with ⟨rfl, rfl⟩ | ⟨-, hold⟩
    · exact h.task_lt id' t ht
    · exact h.task_lt id' t₁ hold
  reaper_live := by
    obtain ⟨tr, htr⟩ := h.reaper_live
    by_cases heq : reaperTask = id
    · subst heq
      exact ⟨{ t with pc }, Function.update_self reaperTask _ sys.tasks⟩
    · exact ⟨tr, (Function.update_of_ne heq ..).trans htr⟩
  retiring id' t₁ task p ht₁ hpc := by
    obtain ⟨hlt, hother⟩ : p < h'.table.nextId ∧
        ∀ id' t', sys.tasks id' = some t' → t'.process ≠ p := by
      rcases tasks_update_cases ht₁ with ⟨rfl, rfl⟩ | ⟨-, hold⟩
      · exact hmoves.retiring task p hpc
      · obtain ⟨hlt, hother⟩ := h.retiring id' t₁ task p hold hpc
        exact ⟨hlt.trans_le hmoves.nextId, hother⟩
    refine ⟨hlt, fun id₂ t₂ ht₂ => ?_⟩
    rcases tasks_update_cases ht₂ with ⟨rfl, rfl⟩ | ⟨-, hold₂⟩
    · exact hother id₂ t ht
    · exact hother id₂ t₂ hold₂
  exitQueue_iff id' := by
    rw [h.exitQueue_iff id']
    exact (exists_update_iff (x := { t with pc }) (P := fun x => x.exited = true) ht Iff.rfl
      id').symm
  exitQueue_nodup := h.exitQueue_nodup
  childWait_iff id' := by
    rw [h.childWait_iff id']
    exact (exists_update_iff (x := { t with pc }) (P := fun x => x.blockedOn = some .childWait) ht
      Iff.rfl id').symm
  childWait_nodup := h.childWait_nodup
  reaperWait_of_blocked t₁ ht₁ hblocked := by
    rcases tasks_update_cases ht₁ with ⟨rfl, rfl⟩ | ⟨-, hold⟩
    · exact h.reaperWait_of_blocked t ht hblocked
    · exact h.reaperWait_of_blocked t₁ hold hblocked
  reaperWait_of_ready t₁ ht₁ hnone := by
    rcases tasks_update_cases ht₁ with ⟨rfl, rfl⟩ | ⟨-, hold⟩
    · exact h.reaperWait_of_ready t ht hready
    · exact h.reaperWait_of_ready t₁ hold hnone
  not_lost id' t₁ target ht₁ hblocked hpc hcollectible := by
    rcases tasks_update_cases ht₁ with ⟨rfl, rfl⟩ | ⟨-, hold⟩
    · exact absurd (hready.symm.trans hblocked) (by simp)
    rcases hmoves.heard with hnone | ⟨rfl, hwakes⟩ | ⟨hquiet, hkept⟩
    · exact absurd hblocked (hnone id' t₁ hold)
    · exact ⟨{ t with pc }, Function.update_self reaperTask _ sys.tasks, hwakes⟩
    · obtain ⟨tr, htr, hwakes⟩ := h.not_lost id' t₁ target hold hblocked hpc
        (hcollectible.of_noneFinishes (hquiet id' t₁ hold))
      -- the pending wake-up is still to come, also if it is the reaper that moved
      by_cases heq : reaperTask = id
      · subst heq
        rw [ht] at htr
        cases htr
        exact ⟨{ t with pc }, Function.update_self reaperTask _ sys.tasks, hkept hwakes⟩
      · exact ⟨tr, (Function.update_of_ne heq ..).trans htr, hwakes⟩

theorem Spaces.moves (h : Spaces sys) (ht : sys.tasks id = some t) {h' : History} {pc : Pc}
    (hspace : h'.space = sys.history.space) (htaken : ∀ s ∈ sys.history.taken, s ∈ h'.taken)
    (hfork : ∀ s, pc ≠ .forking s) (hrelease : ∀ s ∈ pc.toRelease, s ∈ h'.taken) :
    Spaces { sys with
      history := h', tasks := Function.update sys.tasks id (some { t with pc }) } where
  space_lt p s hs := h.space_lt p s (hspace ▸ hs)
  space_unique p q s hp hq := h.space_unique p q s (hspace ▸ hp) (hspace ▸ hq)
  forking id' t₁ s ht₁ hpc := by
    rcases tasks_update_cases ht₁ with ⟨rfl, rfl⟩ | ⟨-, hold⟩
    · exact absurd hpc (hfork s)
    · obtain ⟨hlt, hfresh⟩ := h.forking id' t₁ s hold hpc
      exact ⟨hlt, fun p hp => hfresh p (hspace ▸ hp)⟩
  forking_unique id₁ id₂ t₁ t₂ s ht₁ hpc₁ ht₂ hpc₂ := by
    rcases tasks_update_cases ht₁ with ⟨rfl, rfl⟩ | ⟨-, hold₁⟩
    · exact absurd hpc₁ (hfork s)
    rcases tasks_update_cases ht₂ with ⟨rfl, rfl⟩ | ⟨-, hold₂⟩
    · exact absurd hpc₂ (hfork s)
    exact h.forking_unique id₁ id₂ t₁ t₂ s hold₁ hpc₁ hold₂ hpc₂
  toRelease id' t₁ s ht₁ hs := by
    rcases tasks_update_cases ht₁ with ⟨rfl, rfl⟩ | ⟨-, hold⟩
    · exact hrelease s hs
    · exact htaken s (h.toRelease id' t₁ s hold hs)

/-- A section in which no status changes hands. -/
theorem Statuses.moves (h : Statuses sys) (ht : sys.tasks id = some t) {h' : History} {pc : Pc}
    (hcollected : h'.collected = sys.history.collected)
    (hinherits : Inherits sys.history.table h'.table) (hholds : pc.holds = t.pc.holds) :
    Statuses { sys with
      history := h', tasks := Function.update sys.tasks id (some { t with pc }) } where
  recorded p r s hr hs := by
    obtain ⟨r₀, hr₀, hs₀⟩ := hinherits.status hr hs
    exact h.recorded p r₀ s hr₀ hs₀
  held id' t₁ c s ht₁ hheld := by
    show c ∈ h'.collected ∧ _
    rw [hcollected]
    rcases tasks_update_cases ht₁ with ⟨rfl, rfl⟩ | ⟨-, hold⟩
    · exact h.held id' t c s ht (hholds.symm.trans hheld)
    · exact h.held id' t₁ c s hold hheld
  held_unique id₁ id₂ t₁ t₂ c s s' ht₁ hheld₁ ht₂ hheld₂ := by
    obtain ⟨t₁', ht₁', hheld₁'⟩ :=
      (exists_update_iff (P := fun x => x.pc.holds = some (c, s)) ht
        (by rw [hholds]) id₁).mp ⟨t₁, ht₁, hheld₁⟩
    obtain ⟨t₂', ht₂', hheld₂'⟩ :=
      (exists_update_iff (P := fun x => x.pc.holds = some (c, s')) ht
        (by rw [hholds]) id₂).mp ⟨t₂, ht₂, hheld₂⟩
    exact h.held_unique id₁ id₂ t₁' t₂' c s s' ht₁' hheld₁' ht₂' hheld₂'
  returned c s hmem := by
    show c ∈ h'.collected ∧ _
    rw [hcollected]
    exact h.returned c s hmem
  returned_nodup := h.returned_nodup
  covered c hc := by
    replace hc : c ∈ sys.history.collected := hcollected ▸ hc
    rcases h.covered c hc with hreturned | ⟨id', t₁, s, ht₁, hheld⟩
    · exact Or.inl hreturned
    · obtain ⟨t₂, ht₂, hheld₂⟩ :=
        (exists_update_iff (x := { t with pc }) (P := fun x => x.pc.holds = some (c, s)) ht
          (by rw [hholds]) id').mpr ⟨t₁, ht₁, hheld⟩
      exact Or.inr ⟨id', t₂, s, ht₂, hheld₂⟩
  taskless c hc id' t₁ ht₁ := by
    replace hc : c ∈ sys.history.collected := hcollected ▸ hc
    rcases tasks_update_cases ht₁ with ⟨rfl, rfl⟩ | ⟨-, hold⟩
    · exact h.taskless c hc id' t ht
    · exact h.taskless c hc id' t₁ hold

/-! ## Wake-ups -/

/-- The tasks of a queue become runnable. -/
def leaveAll (queue : Queue) (tasks : Tasks) : Tasks :=
  fun id => (tasks id).map (Task.leave queue)

theorem leaveAll_cases {queue : Queue} {tasks : Tasks} (h : leaveAll queue tasks id = some t₁) :
    ∃ t₀, tasks id = some t₀ ∧ t₁ = t₀.leave queue := by
  obtain ⟨t₀, ht₀, heq⟩ := Option.map_eq_some_iff.mp h
  exact ⟨t₀, ht₀, heq.symm⟩

/-- A property that wake-ups do not change. -/
theorem exists_leaveAll_iff {queue : Queue} {tasks : Tasks} {P : Task → Prop}
    (hP : ∀ x : Task, P (x.leave queue) ↔ P x) (id : ℕ) :
    (∃ x, leaveAll queue tasks id = some x ∧ P x) ↔ ∃ x, tasks id = some x ∧ P x := by
  simp only [leaveAll, Option.map_eq_some_iff]
  constructor
  · rintro ⟨_, ⟨x, hx, rfl⟩, hpx⟩
    exact ⟨x, hx, (hP x).mp hpx⟩
  · rintro ⟨x, hx, hpx⟩
    exact ⟨_, ⟨x, hx, rfl⟩, (hP x).mpr hpx⟩

/-- With a queue of blocked tasks `wake_all` wakes them all. -/
theorem wakeAll_of_blocked (queue : List ℕ) (tasks : Tasks) (hnodup : queue.Nodup)
    (hblocked : ∀ id ∈ queue, ∃ x, tasks id = some x ∧ x.blockedOn.isSome) :
    wakeAll queue tasks = ([], fun id =>
      if id ∈ queue then (tasks id).map (fun x => { x with blockedOn := none }) else tasks id) := by
  induction queue generalizing tasks with
  | nil => simp [wakeAll]
  | cons front rest ih =>
    obtain ⟨x, hx, hsome⟩ := hblocked front List.mem_cons_self
    obtain ⟨hout, hnodup⟩ := List.nodup_cons.mp hnodup
    simp only [wakeAll, hx, Option.filter, hsome, if_true]
    rw [ih _ hnodup]
    · refine Prod.ext rfl (funext fun id => ?_)
      by_cases heq : id = front
      · subst heq
        simp [hout, hx]
      · simp [heq]
    · -- the tasks behind the front are not touched by its wake-up
      intro id hid
      have hne : id ≠ front := fun heq => hout (heq ▸ hid)
      rw [Function.update_of_ne hne]
      exact hblocked id (List.mem_cons_of_mem front hid)

/-- `wake_all` on a queue that holds exactly the tasks blocked on it. -/
theorem wakeAll_eq {waiters : List ℕ} {queue : Queue} {tasks : Tasks} (hnodup : waiters.Nodup)
    (hiff : ∀ id, id ∈ waiters ↔ ∃ x, tasks id = some x ∧ x.blockedOn = some queue) :
    wakeAll waiters tasks = ([], leaveAll queue tasks) := by
  rw [wakeAll_of_blocked waiters tasks hnodup]
  · refine Prod.ext rfl (funext fun id => ?_)
    show (if id ∈ waiters then _ else _) = leaveAll queue tasks id
    rw [leaveAll]
    cases hx : tasks id with
    | none => simp
    | some x =>
      by_cases hblocked : x.blockedOn = some queue
      · rw [if_pos ((hiff id).mpr ⟨x, hx, hblocked⟩), Option.map_some, Option.map_some, Task.leave,
          if_pos hblocked]
      · have hout : id ∉ waiters := by
          intro hmem
          obtain ⟨y, hy, hblocked'⟩ := (hiff id).mp hmem
          rw [hx] at hy
          cases hy
          exact hblocked hblocked'
        rw [if_neg hout, Option.map_some, Task.leave, if_neg hblocked]
  · intro id hid
    obtain ⟨x, hx, hblocked⟩ := (hiff id).mp hid
    exact ⟨x, hx, by rw [hblocked]; rfl⟩

/-- `wake_one` on a queue that holds exactly the tasks blocked on it, of which there is at most
one. -/
theorem wakeOne_eq {waiters : List ℕ} {queue : Queue} {tasks : Tasks} (hlen : waiters.length ≤ 1)
    (hiff : ∀ id, id ∈ waiters ↔ ∃ x, tasks id = some x ∧ x.blockedOn = some queue) :
    wakeOne waiters tasks = ([], leaveAll queue tasks) := by
  have hnodup : waiters.Nodup := by
    match waiters, hlen with
    | [], _ => exact List.nodup_nil
    | [front], _ => exact List.nodup_singleton front
  rw [← wakeAll_eq hnodup hiff]
  match waiters, hlen with
  | [], _ => rfl
  | [front], _ =>
    obtain ⟨x, hx, hblocked⟩ := (hiff front).mp List.mem_cons_self
    have hsome : x.blockedOn.isSome = true := by rw [hblocked]; rfl
    simp [wakeOne, wakeAll, wakeTask, hx, hsome, Option.filter]

theorem reaper_not_childWait (h : Core sys) (ht : sys.tasks reaperTask = some t) :
    t.blockedOn ≠ some .childWait := by
  intro hblocked
  have hok := h.task reaperTask t ht
  obtain ⟨target, hpc⟩ := hok.childWait hblocked
  have hreaper := hok.reaper.mpr rfl
  rw [hpc] at hreaper
  cases hreaper

theorem Core.reaperWait_iff (h : Core sys) (id : ℕ) :
    id ∈ sys.reaperWait ↔ ∃ x, sys.tasks id = some x ∧ x.blockedOn = some .reaperWait := by
  obtain ⟨tr, htr⟩ := h.reaper_live
  constructor
  · intro hmem
    cases hblocked : tr.blockedOn with
    | none =>
      rw [h.reaperWait_of_ready tr htr hblocked] at hmem
      cases hmem
    | some queue =>
      cases queue with
      | childWait => exact absurd hblocked (reaper_not_childWait h htr)
      | reaperWait =>
        rw [(h.reaperWait_of_blocked tr htr hblocked).1, List.mem_singleton] at hmem
        exact ⟨tr, hmem ▸ htr, hblocked⟩
  · rintro ⟨x, hx, hblocked⟩
    have hok := h.task id x hx
    obtain rfl : id = reaperTask := hok.reaper.mp (by rw [hok.reaperWait hblocked]; rfl)
    rw [(h.reaperWait_of_blocked x hx hblocked).1]
    exact List.mem_singleton_self _

theorem Core.reaperWait_length (h : Core sys) : sys.reaperWait.length ≤ 1 := by
  obtain ⟨tr, htr⟩ := h.reaper_live
  cases hblocked : tr.blockedOn with
  | none =>
    rw [h.reaperWait_of_ready tr htr hblocked]
    simp
  | some queue =>
    cases queue with
    | childWait => exact absurd hblocked (reaper_not_childWait h htr)
    | reaperWait =>
      rw [(h.reaperWait_of_blocked tr htr hblocked).1]
      simp

/-- What the two queues' wake-ups share: the fields that do not mention the queue. -/
theorem Core.leave (h : Core sys) (queue : Queue) (childWait reaperWait : List ℕ)
    (hchild : ∀ id, id ∈ childWait ↔
      ∃ x, leaveAll queue sys.tasks id = some x ∧ x.blockedOn = some .childWait)
    (hnodup : childWait.Nodup)
    (hreaper : ∀ x, sys.tasks reaperTask = some x → (x.leave queue).blockedOn = none →
      reaperWait = [])
    (hblocked : ∀ x, sys.tasks reaperTask = some x → (x.leave queue).blockedOn = some .reaperWait →
      reaperWait = sys.reaperWait) :
    Core { sys with tasks := leaveAll queue sys.tasks, childWait, reaperWait } where
  recorded := h.recorded
  noWaiters := h.noWaiters
  task id t₁ ht₁ := by
    obtain ⟨t₀, ht₀, rfl⟩ := leaveAll_cases ht₁
    exact (h.task id t₀ ht₀).leave queue
  task_lt id t₁ ht₁ := by
    obtain ⟨t₀, ht₀, -⟩ := leaveAll_cases ht₁
    exact h.task_lt id t₀ ht₀
  reaper_live := by
    obtain ⟨tr, htr⟩ := h.reaper_live
    exact ⟨tr.leave queue, by simp [leaveAll, htr]⟩
  retiring id t₁ task p ht₁ hpc := by
    obtain ⟨t₀, ht₀, rfl⟩ := leaveAll_cases ht₁
    rw [Task.leave_pc] at hpc
    obtain ⟨hlt, hother⟩ := h.retiring id t₀ task p ht₀ hpc
    refine ⟨hlt, fun id₂ t₂ ht₂ => ?_⟩
    obtain ⟨t₃, ht₃, rfl⟩ := leaveAll_cases ht₂
    rw [Task.leave_process]
    exact hother id₂ t₃ ht₃
  exitQueue_iff id := by
    rw [h.exitQueue_iff id]
    exact (exists_leaveAll_iff (fun x => by rw [Task.leave_exited]) id).symm
  exitQueue_nodup := h.exitQueue_nodup
  childWait_iff := hchild
  childWait_nodup := hnodup
  reaperWait_of_blocked t₁ ht₁ hwait := by
    obtain ⟨t₀, ht₀, rfl⟩ := leaveAll_cases ht₁
    show reaperWait = _ ∧ _
    rw [hblocked t₀ ht₀ hwait]
    exact h.reaperWait_of_blocked t₀ ht₀
      ((Task.leave_blockedOn_iff queue t₀ .reaperWait).mp hwait).1
  reaperWait_of_ready t₁ ht₁ hready := by
    obtain ⟨t₀, ht₀, rfl⟩ := leaveAll_cases ht₁
    exact hreaper t₀ ht₀ hready
  not_lost id t₁ target ht₁ hwait hpc hcollectible := by
    obtain ⟨t₀, ht₀, rfl⟩ := leaveAll_cases ht₁
    rw [Task.leave_pc] at hpc
    rw [Task.leave_process] at hcollectible
    obtain ⟨tr, htr, hwakes⟩ := h.not_lost id t₀ target ht₀
      ((Task.leave_blockedOn_iff queue t₀ .childWait).mp hwait).1 hpc hcollectible
    exact ⟨tr.leave queue, by simp [leaveAll, htr], by rw [Task.leave_pc]; exact hwakes⟩

theorem Core.wakeParents_eq (h : Core sys) :
    sys.wakeParents = { sys with childWait := [], tasks := leaveAll .childWait sys.tasks } := by
  simp only [wakeParents, wakeAll_eq h.childWait_nodup h.childWait_iff]

theorem Core.wakeReaper_eq (h : Core sys) :
    sys.wakeReaper = { sys with reaperWait := [], tasks := leaveAll .reaperWait sys.tasks } := by
  simp only [wakeReaper, wakeOne_eq h.reaperWait_length h.reaperWait_iff]

/-- Waking the parents leaves none of them blocked. -/
theorem Core.wakeParents (h : Core sys) : Core sys.wakeParents ∧
    ∀ id t, sys.wakeParents.tasks id = some t → t.blockedOn ≠ some .childWait := by
  have hnone : ∀ id x, leaveAll .childWait sys.tasks id = some x → x.blockedOn ≠ some .childWait := by
    intro id x hx hblocked
    obtain ⟨t₀, -, rfl⟩ := leaveAll_cases hx
    exact ((Task.leave_blockedOn_iff .childWait t₀ .childWait).mp hblocked).2 rfl
  rw [h.wakeParents_eq]
  refine ⟨?_, hnone⟩
  refine h.leave .childWait [] sys.reaperWait (fun id => ?_) List.nodup_nil
    (fun x hx hready => ?_) (fun _ _ _ => rfl)
  · constructor
    · intro hmem
      cases hmem
    · rintro ⟨x, hx, hblocked⟩
      exact absurd hblocked (hnone id x hx)
  · -- the reaper is never blocked on the parents' queue
    rw [Task.leave, if_neg (reaper_not_childWait h hx)] at hready
    exact h.reaperWait_of_ready x hx hready

theorem Core.wakeReaper (h : Core sys) : Core sys.wakeReaper := by
  rw [h.wakeReaper_eq]
  refine h.leave .reaperWait sys.childWait [] (fun id => ?_) h.childWait_nodup
    (fun _ _ _ => rfl) (fun x hx hblocked => ?_)
  · rw [h.childWait_iff id]
    exact (exists_leaveAll_iff (fun x => by simp [Task.leave_blockedOn_iff]) id).symm
  · exact absurd rfl ((Task.leave_blockedOn_iff .reaperWait x .reaperWait).mp hblocked).2

/-! ## Sections that move no task

`Spaces` and `Statuses` see of a task only its process and its program counter. -/

/-- The tasks are in the processes and at the program counters they were. -/
def SamePcs (tasks tasks' : Tasks) : Prop :=
  ∀ id, (tasks' id).map (fun x => (x.process, x.pc)) = (tasks id).map fun x => (x.process, x.pc)

theorem SamePcs.refl (tasks : Tasks) : SamePcs tasks tasks :=
  fun _ => rfl

theorem SamePcs.symm {tasks tasks' : Tasks} (h : SamePcs tasks tasks') : SamePcs tasks' tasks :=
  fun id => (h id).symm

theorem SamePcs.find {tasks tasks' : Tasks} (h : SamePcs tasks tasks')
    (ht : tasks' id = some t₁) :
    ∃ t₀, tasks id = some t₀ ∧ t₁.process = t₀.process ∧ t₁.pc = t₀.pc := by
  have hid := h id
  rw [ht, Option.map_some] at hid
  obtain ⟨t₀, ht₀, heq⟩ := Option.map_eq_some_iff.mp hid.symm
  exact ⟨t₀, ht₀, (congrArg Prod.fst heq).symm, (congrArg Prod.snd heq).symm⟩

theorem samePcs_leaveAll (queue : Queue) (tasks : Tasks) : SamePcs tasks (leaveAll queue tasks) := by
  intro id
  rw [leaveAll, Option.map_map]
  refine congrArg (fun f => Option.map f (tasks id)) (funext fun x => ?_)
  simp

theorem samePcs_update {tasks : Tasks} {x : Task} (ht : tasks id = some t)
    (hprocess : x.process = t.process) (hpc : x.pc = t.pc) :
    SamePcs tasks (Function.update tasks id (some x)) := by
  intro id'
  by_cases heq : id' = id
  · subst heq
    rw [Function.update_self, ht, Option.map_some, Option.map_some, hprocess, hpc]
  · rw [Function.update_of_ne heq]

theorem Spaces.of_samePcs {sys' : Lifecycle} (h : Spaces sys)
    (hspace : sys'.history.space = sys.history.space)
    (htaken : sys'.history.taken = sys.history.taken) (hnext : sys'.nextSpace = sys.nextSpace)
    (hsame : SamePcs sys.tasks sys'.tasks) : Spaces sys' where
  space_lt := by
    rw [hspace, hnext]
    exact h.space_lt
  space_unique := by
    rw [hspace]
    exact h.space_unique
  forking id t₁ s ht₁ hpc := by
    obtain ⟨t₀, ht₀, -, hpc₀⟩ := hsame.find ht₁
    rw [hspace, hnext]
    exact h.forking id t₀ s ht₀ (hpc₀ ▸ hpc)
  forking_unique id₁ id₂ t₁ t₂ s ht₁ hpc₁ ht₂ hpc₂ := by
    obtain ⟨t₃, ht₃, -, hpc₃⟩ := hsame.find ht₁
    obtain ⟨t₄, ht₄, -, hpc₄⟩ := hsame.find ht₂
    exact h.forking_unique id₁ id₂ t₃ t₄ s ht₃ (hpc₃ ▸ hpc₁) ht₄ (hpc₄ ▸ hpc₂)
  toRelease id t₁ s ht₁ hs := by
    obtain ⟨t₀, ht₀, -, hpc₀⟩ := hsame.find ht₁
    rw [htaken]
    exact h.toRelease id t₀ s ht₀ (hpc₀ ▸ hs)

theorem Statuses.of_samePcs {sys' : Lifecycle} (h : Statuses sys)
    (hrecorded : ∀ p r s, sys'.history.table.process p = some r → r.exitStatus = some s →
      sys'.status p = some s)
    (hcollected : sys'.history.collected = sys.history.collected)
    (hstatus : ∀ c ∈ sys.history.collected, sys'.status c = sys.status c)
    (hreturned : sys'.returned = sys.returned) (hsame : SamePcs sys.tasks sys'.tasks) :
    Statuses sys' where
  recorded := hrecorded
  held id t₁ c s ht₁ hheld := by
    obtain ⟨t₀, ht₀, -, hpc₀⟩ := hsame.find ht₁
    obtain ⟨hmem, hs, hout⟩ := h.held id t₀ c s ht₀ (hpc₀ ▸ hheld)
    rw [hcollected, hstatus c hmem, hreturned]
    exact ⟨hmem, hs, hout⟩
  held_unique id₁ id₂ t₁ t₂ c s s' ht₁ hheld₁ ht₂ hheld₂ := by
    obtain ⟨t₃, ht₃, -, hpc₃⟩ := hsame.find ht₁
    obtain ⟨t₄, ht₄, -, hpc₄⟩ := hsame.find ht₂
    exact h.held_unique id₁ id₂ t₃ t₄ c s s' ht₃ (hpc₃ ▸ hheld₁) ht₄ (hpc₄ ▸ hheld₂)
  returned c s hmem := by
    rw [hreturned] at hmem
    obtain ⟨hold, hs⟩ := h.returned c s hmem
    rw [hcollected, hstatus c hold]
    exact ⟨hold, hs⟩
  returned_nodup := by
    rw [hreturned]
    exact h.returned_nodup
  covered c hc := by
    rw [hcollected] at hc
    rw [hreturned]
    rcases h.covered c hc with hdone | ⟨id, t₀, s, ht₀, hheld⟩
    · exact Or.inl hdone
    · obtain ⟨t₁, ht₁, -, hpc₁⟩ := hsame.symm.find ht₀
      exact Or.inr ⟨id, t₁, s, ht₁, hpc₁ ▸ hheld⟩
  taskless c hc id t₁ ht₁ := by
    rw [hcollected] at hc
    obtain ⟨t₀, ht₀, hprocess, -⟩ := hsame.find ht₁
    rw [hprocess]
    exact h.taskless c hc id t₀ ht₀

end Lifecycle

end SaeOS.Process
