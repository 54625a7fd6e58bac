import SaeOS.Task.SchedulerRun

/-!
# What an operation does to the tasks

The invariant of the scheduler says where tasks are; the lemmas here say what happens to them. A
task's `outline` is the task without its accounting, so that charging and placing leave it alone,
and each operation is described by the few outlines it rewrites: dispatching makes one ready task
running, a requeue makes the running task ready again, a stop takes it off the CPU with an edit, and
waking makes one blocked task ready and clears its wait link.
-/

namespace SaeOS.Task

/-- A task without its accounting. -/
def TaskControlBlock.outline (t : TaskControlBlock) : TaskControlBlock :=
  { t with schedulerEntity := {}, dispatchedAt := 0, sliceStart := 0 }

namespace Scheduler

variable {s s' : Scheduler} {id now : ℕ} {t t₀ : TaskControlBlock}

/-- The outline of the task with this id. -/
def outline (s : Scheduler) (id : ℕ) : Option TaskControlBlock :=
  (s.task id).map TaskControlBlock.outline

theorem outline_of_task (ht : s.task id = some t) : s.outline id = some t.outline := by
  rw [outline, ht, Option.map_some]

theorem exists_task_of_outline {o : TaskControlBlock} (ho : s.outline id = some o) :
    ∃ t, s.task id = some t ∧ t.outline = o :=
  Option.map_eq_some_iff.mp ho

/-- The outlines only depend on the tasks. -/
theorem outline_congr (h : s'.task = s.task) : s'.outline = s.outline := by
  funext id
  rw [outline, outline, h]

/-- Writing a live task writes its outline. -/
theorem Slots.outline_setTask (h : s.SlotsOk) (ht₀ : s.task id = some t₀) :
    (s.setTask id t).outline = Function.update s.outline id (some t.outline) := by
  funext id'
  rw [outline, h.task_setTask ht₀]
  by_cases heq : id' = id
  · subst heq
    rw [Function.update_self, Function.update_self, Option.map_some]
  · rw [Function.update_of_ne heq, Function.update_of_ne heq, outline]

/-- Writing the accounting of a task leaves every outline alone. -/
theorem Slots.outline_setTask_same (h : s.SlotsOk) (ht₀ : s.task id = some t₀)
    (ht : t.outline = t₀.outline) : (s.setTask id t).outline = s.outline := by
  rw [h.outline_setTask ht₀, ht, ← outline_of_task ht₀, Function.update_eq_self]

/-! ## Charging -/

@[simp]
theorem task_refreshAverage (s : Scheduler) : s.refreshAverage.task = s.task := by
  rw [refreshAverage_eq]
  rfl

@[simp]
theorem outline_refreshAverage (s : Scheduler) : s.refreshAverage.outline = s.outline :=
  outline_congr (task_refreshAverage s)

/-- Charging a live task changes its accounting only. -/
theorem Slots.outline_charge (h : s.SlotsOk) (id now : ℕ) :
    (s.charge id now).2.outline = s.outline := by
  cases ht₀ : s.task id with
  | none => simp [charge, ht₀]
  | some t₀ =>
    simp only [charge, ht₀]
    split_ifs
    · exact h.outline_setTask_same ht₀ rfl
    · rw [outline_refreshAverage]
      exact (outline_congr rfl).trans (h.outline_setTask_same ht₀ rfl)

@[simp]
theorem idle_setTask (s : Scheduler) (id : ℕ) (t : TaskControlBlock) :
    (s.setTask id t).idle = s.idle := by
  unfold setTask
  split <;> rfl

@[simp]
theorem idle_charge (s : Scheduler) (id now : ℕ) : (s.charge id now).2.idle = s.idle := by
  unfold charge
  split
  · rfl
  · simp only
    split_ifs
    · exact idle_setTask ..
    · rw [refreshAverage_eq]
      exact idle_setTask ..

/-! ## Dispatching -/

/-- The outcome `r` of dispatching when nothing runs and the tasks are `o`: one ready task is made
running, or there is no task at all. -/
structure Dispatches (o : ℕ → Option TaskControlBlock) (idle : Option ℕ)
    (r : Outcome (Option ℕ)) : Prop where
  ok : r.1 = .ok r.2.current
  idle_eq : r.2.idle = idle
  moved : (r.2.current = none ∧ idle = none ∧ r.2.outline = o) ∨
    ∃ id t, o id = some t ∧ t.state = .ready ∧ r.2.current = some id ∧
      r.2.outline = Function.update o id (some { t with state := .running })

/-- The result of `switch_to_next` once a task is picked. -/
theorem switchToNext_ok_of_pick {s₁ : Scheduler} (previous : Option ℕ) (now : ℕ)
    (hpick : ({ s with wakeupPreempt := false }).pickNext = (some id, s₁))
    (ht₀ : s₁.task id = some t₀) (hready : t₀.state = .ready) :
    (s.switchToNext previous now).1 = .ok (some id) := by
  simp only [Scheduler.switchToNext, hpick, ht₀, TaskControlBlock.transition, hready,
    TaskState.canTransition, ↓reduceIte]
  split_ifs <;> rfl

/-- Dispatching a picked task. -/
theorem Inv.dispatches_of_pick (h : Inv s) {q : List ℕ} (previous : Option ℕ) (now : ℕ)
    (hpick : ({ s with wakeupPreempt := false }).pickNext =
      (some id, { s with wakeupPreempt := false, runQueue := q }))
    (ht₀ : s.task id = some t₀) (hready : t₀.state = .ready) :
    Dispatches s.outline s.idle (s.switchToNext previous now) := by
  obtain ⟨stats, hstate⟩ := switchToNext_of_pick previous now hpick ht₀ hready
  have hresult := switchToNext_ok_of_pick previous now hpick ht₀ hready
  obtain ⟨slot, hindex, -, -⟩ := h.slots.slot_of_task ht₀
  -- taking the task off the run queue leaves the slots alone
  set s₁ : Scheduler := { s with wakeupPreempt := false, runQueue := q } with hs₁
  have hslots₁ : s₁.SlotsOk := h.slots
  have ht₁ : s₁.task id = some t₀ := ht₀
  refine ⟨by rw [hresult, hstate], ?_, Or.inr ⟨id, t₀.outline, outline_of_task ht₀, hready,
    by rw [hstate], ?_⟩⟩
  · rw [hstate, setTask_eq (s := s₁) hindex]
  · rw [hstate]
    exact (outline_congr rfl).trans (hslots₁.outline_setTask ht₁)

/-- `switch_to_next` dispatches a ready task, if there is any. -/
theorem Inv.dispatches (h : Inv s) (hnone : s.current = none) (previous : Option ℕ) (now : ℕ) :
    Dispatches s.outline s.idle (s.switchToNext previous now) := by
  have h₁ : Inv { s with wakeupPreempt := false } :=
    ⟨h.slots, h.placed, h.sumWeight, h.sumWeightedRuntime⟩
  rcases h₁.pickNext with ⟨hempty, hpick⟩ | ⟨id, q, hpick, hperm⟩
  · cases hidle : s.idle with
    | none =>
      have hpick' : ({ s with wakeupPreempt := false }).pickNext =
          (none, { s with wakeupPreempt := false }) := hpick.trans (Prod.ext hidle rfl)
      simp only [Scheduler.switchToNext, hpick']
      split_ifs
      · exact ⟨rfl, hidle, Or.inl ⟨rfl, rfl, rfl⟩⟩
      · exact ⟨rfl, hidle, Or.inl ⟨rfl, rfl, rfl⟩⟩
    | some id =>
      have hpick' : ({ s with wakeupPreempt := false }).pickNext =
          (some id, { s with wakeupPreempt := false, runQueue := s.runQueue }) :=
        hpick.trans (Prod.ext hidle rfl)
      obtain ⟨t₀, ht₀⟩ := h.placed.live id (Or.inr (Or.inl hidle))
      rw [← hidle]
      exact h.dispatches_of_pick previous now hpick' ht₀ (h.idle_ready hnone hidle ht₀)
  · have hmem : id ∈ s.runQueue := hperm.mem_iff.mp List.mem_cons_self
    obtain ⟨t₀, ht₀⟩ := h.placed.live id (Or.inr (Or.inr (Or.inl hmem)))
    exact h.dispatches_of_pick previous now hpick ht₀
      ((h.placed.placedAs id t₀ ht₀).runQueue_iff.mp hmem).1

/-! ## Taking the CPU away -/

/-- The outlines `o` with the running task, if any, edited by `f`. -/
def editCurrent (o : ℕ → Option TaskControlBlock) (f : TaskControlBlock → TaskControlBlock) :
    Option ℕ → ℕ → Option TaskControlBlock
  | none => o
  | some id => Function.update o id ((o id).map f)

/-- Two edits of the running task, one after the other. -/
theorem editCurrent_editCurrent (o : ℕ → Option TaskControlBlock)
    (f g : TaskControlBlock → TaskControlBlock) (current : Option ℕ) :
    editCurrent (editCurrent o f current) g current = editCurrent o (g ∘ f) current := by
  cases current with
  | none => rfl
  | some id =>
    simp only [editCurrent, Function.update_self, Option.map_map, Function.update_idem]

/-- A running task that was taken off the CPU but can go on. -/
def requeue (t : TaskControlBlock) : TaskControlBlock :=
  { t with state := .ready }

/-- The first half of `schedule` makes the running task ready. -/
theorem Inv.outline_requeueCurrent (h : Inv s) {s₁ : Scheduler}
    (hrun : s.requeueCurrent now = (.ok (), s₁)) :
    s₁.outline = editCurrent s.outline requeue s.current ∧ s₁.idle = s.idle := by
  cases hcurrent : s.current with
  | none =>
    simp only [Scheduler.requeueCurrent, hcurrent, Prod.mk.injEq, true_and] at hrun
    subst hrun
    exact ⟨rfl, rfl⟩
  | some id =>
    obtain ⟨t₀, ht₀, hrunning⟩ := h.current_task hcurrent
    obtain ⟨t₁, hedit, hrunning₁, -, -, -, -, hidle₁⟩ := h.charge ht₀ hrunning now
    obtain ⟨h₁, htask₁⟩ := h.edit ht₀ hedit
    have ht₁ : (s.charge id now).2.task id = some t₁ := by rw [htask₁, Function.update_self]
    -- the charged task has the outline it had before
    have hsame : t₁.outline = t₀.outline := by
      have hcharge := congrFun (h.slots.outline_charge id now) id
      rw [outline_of_task ht₁, outline_of_task ht₀] at hcharge
      exact Option.some.inj hcharge
    have hready : some (requeue t₁.outline) =
        (s.outline id).map requeue := by
      rw [outline_of_task ht₀, Option.map_some, hsame]
    obtain ⟨slot, hindex, -, -⟩ := h₁.slots.slot_of_task ht₁
    simp only [Scheduler.requeueCurrent, hcurrent, ht₀, hrunning, ↓reduceIte, ht₁,
      TaskControlBlock.transition, hrunning₁, TaskState.canTransition] at hrun
    rw [editCurrent, ← hready, ← h.slots.outline_charge id now]
    split_ifs at hrun
    · simp only [Prod.mk.injEq, true_and] at hrun
      subst hrun
      refine ⟨h₁.slots.outline_setTask ht₁, ?_⟩
      rw [setTask_eq hindex, hidle₁]
    · simp only [Prod.mk.injEq, true_and] at hrun
      subst hrun
      refine ⟨(outline_congr rfl).trans (h₁.slots.outline_setTask ht₁), ?_⟩
      rw [setTask_eq hindex, hidle₁]

/-- `schedule` makes the running task ready and dispatches a ready one. -/
theorem Inv.dispatches_schedule (h : Inv s) (now : ℕ) :
    Dispatches (editCurrent s.outline requeue s.current) s.idle (s.schedule now) := by
  obtain ⟨s₁, hrequeue, h₁⟩ := (h.setClock now).requeueCurrent now
  obtain ⟨houtline, hidle⟩ := (h.setClock now).outline_requeueCurrent hrequeue
  have hdispatch := h₁.dispatches rfl s.current now
  simp only [Scheduler.schedule, hrequeue]
  have hclock : ({ s with clock := now } : Scheduler).outline = s.outline := rfl
  rw [hclock] at houtline
  have hsame : ({ s₁ with current := none } : Scheduler).outline = s₁.outline := rfl
  rw [hsame, houtline] at hdispatch
  simpa only [hidle] using hdispatch

/-- `preempt` records the interrupt frame in the running task before it is requeued. -/
def saveFrame (stackPointer : ℕ) (t : TaskControlBlock) : TaskControlBlock :=
  { t with interruptStackPointer := stackPointer, resumeKind := .interrupt }

/-- Writing the running task, seen in the outlines. -/
theorem Inv.outline_setTask_current (h : Inv s) {f : TaskControlBlock → TaskControlBlock}
    (hf : ∀ t, (f t).outline = f t.outline) (hcurrent : s.current = some id)
    (ht : s.task id = some t) : (s.setTask id (f t)).outline = editCurrent s.outline f s.current := by
  rw [h.slots.outline_setTask ht, hcurrent, editCurrent, outline_of_task ht, Option.map_some, hf]

/-- Saving the interrupt frame writes the running task only. -/
theorem Inv.outline_savedFrame (h : Inv s) (stackPointer : ℕ) :
    (s.savedFrame stackPointer).outline = editCurrent s.outline (saveFrame stackPointer) s.current ∧
      (s.savedFrame stackPointer).current = s.current ∧
      (s.savedFrame stackPointer).idle = s.idle := by
  unfold Scheduler.savedFrame
  cases hcurrent : s.current with
  | none => exact ⟨rfl, hcurrent, rfl⟩
  | some current =>
    obtain ⟨t, ht, -⟩ := h.current_task hcurrent
    obtain ⟨slot, hindex, -, -⟩ := h.slots.slot_of_task ht
    simp only [ht]
    refine ⟨?_, ?_, ?_⟩
    · rw [← hcurrent]
      exact h.outline_setTask_current (f := saveFrame stackPointer) (fun _ => rfl) hcurrent ht
    · rw [setTask_eq hindex, hcurrent]
    · rw [setTask_eq hindex]

/-- `preempt` saves the running task's interrupt frame and dispatches a ready task. -/
theorem Inv.dispatches_preempt (h : Inv s) {stackPointer next : ℕ}
    (hrun : s.preempt stackPointer now = some (next, s')) :
    s'.current = some next ∧ Dispatches
      (editCurrent s.outline (requeue ∘ saveFrame stackPointer) s.current) s.idle
      (.ok s'.current, s') := by
  obtain ⟨houtline, hcurrent, hidle⟩ := h.outline_savedFrame stackPointer
  obtain ⟨stats, hid, rfl⟩ := preempt_schedule hrun
  have hdispatch := (h.savedFrame stackPointer).dispatches_schedule now
  rw [houtline, hcurrent, editCurrent_editCurrent, hidle] at hdispatch
  generalize (s.savedFrame stackPointer).schedule now = r at hid hdispatch
  refine ⟨?_, rfl, hdispatch.idle_eq, hdispatch.moved⟩
  -- with no task to run the caller panics, so some task was dispatched
  change r.2.current.or r.2.idle = some next at hid
  change r.2.current = some next
  rcases hdispatch.moved with ⟨hnone, hnoIdle, -⟩ | ⟨id', t, -, -, hcur, -⟩
  · rw [hnone, hdispatch.idle_eq, hnoIdle] at hid
    cases hid
  · rw [hcur] at hid ⊢
    exact hid

/-- A task that gives up the CPU resumes through its voluntary context. -/
def markVoluntary (t : TaskControlBlock) : TaskControlBlock :=
  { t with resumeKind := .voluntary }

theorem prepareVoluntaryYield_eq {id : ℕ} {t : TaskControlBlock} (hcurrent : s.current = some id)
    (ht : s.task id = some t) (hrunning : t.state = .running) (now : ℕ) :
    s.prepareVoluntaryYield now =
      match (s.setTask id (markVoluntary t)).schedule now with
      | (.error e, s) => (.error e, s)
      | (.ok none, s) => (.error .unknownTask, s)
      | (.ok (some next), s) => (.ok (id, next),
          { s with stats.voluntaryYields := saturatingSucc s.stats.voluntaryYields }) := by
  simp only [Scheduler.prepareVoluntaryYield, hcurrent, ht]
  rw [if_neg (not_not.mpr hrunning)]
  rfl

/-- `prepare_voluntary_yield` marks the running task and dispatches a ready task; it fails without
effect when nothing runs. -/
theorem Inv.dispatches_prepareVoluntaryYield (h : Inv s) (now : ℕ) :
    (s.current = none ∧ s.prepareVoluntaryYield now = (.error .unknownTask, s)) ∨
      ∃ id r, s.current = some id ∧ (s.prepareVoluntaryYield now).2.outline = r.2.outline ∧
        (s.prepareVoluntaryYield now).2.current = r.2.current ∧
        (s.prepareVoluntaryYield now).1 = (match r.2.current with
          | none => .error .unknownTask
          | some next => .ok (id, next)) ∧
        Dispatches (editCurrent s.outline (requeue ∘ markVoluntary) s.current) s.idle r := by
  cases hcurrent : s.current with
  | none => exact Or.inl ⟨rfl, by simp only [Scheduler.prepareVoluntaryYield, hcurrent]⟩
  | some id =>
    right
    obtain ⟨t, ht, hrunning⟩ := h.current_task hcurrent
    obtain ⟨slot, hindex, -, -⟩ := h.slots.slot_of_task ht
    have hinv : Inv (s.setTask id (markVoluntary t)) := h.setTask ht ⟨rfl, rfl, rfl, rfl⟩
    have hdispatch := hinv.dispatches_schedule now
    have houtline := h.outline_setTask_current (f := markVoluntary) (fun _ => rfl) hcurrent ht
    have hset : (s.setTask id (markVoluntary t)).current = s.current ∧
        (s.setTask id (markVoluntary t)).idle = s.idle := by
      rw [setTask_eq hindex]
      exact ⟨rfl, rfl⟩
    rw [houtline, hset.1, hset.2, editCurrent_editCurrent, hcurrent] at hdispatch
    have hyield := prepareVoluntaryYield_eq hcurrent ht hrunning now
    generalize (s.setTask id (markVoluntary t)).schedule now = r at hyield hdispatch
    obtain ⟨r₁, r₂⟩ := r
    have hok : r₁ = .ok r₂.current := hdispatch.ok
    subst hok
    refine ⟨id, (.ok r₂.current, r₂), rfl, ?_, ?_, ?_, hdispatch⟩
    · rw [hyield]
      cases r₂.current <;> rfl
    · rw [hyield]
      cases hnext : r₂.current <;> exact hnext
    · rw [hyield]
      cases r₂.current <;> rfl

/-! ## Blocking, sleeping and exiting -/

/-- The outline of a task that `stop_current` has taken off the CPU. -/
def stopped (state : TaskState) (t : TaskControlBlock) : TaskControlBlock :=
  { t with state, resumeKind := .voluntary }

/-- The common end of `sleep`, `block` and `exit`: it fails without effect when nothing runs, and
otherwise stops and edits the running task, and dispatches a ready one. -/
theorem Inv.dispatches_stopThen (h : Inv s) (state : TaskState)
    (edit : TaskControlBlock → TaskControlBlock) (queue : ℕ → Scheduler → Scheduler)
    (sleepers : ℕ → Scheduler → List (ℕ × ℕ)) (hguard : s.NotIdle)
    (hstate : state = .blocked ∨ state = .exited)
    (hedit : ∀ t, (edit t).taskId = t.taskId ∧ (edit t).isIdle = t.isIdle ∧
      (edit t).schedulerEntity = t.schedulerEntity ∧ (edit t).state = t.state)
    (houtline : ∀ t, (edit t).outline = edit t.outline)
    (hqueue : ∀ id s, queue id s = { s with
      exitQueue := if state = .exited then s.exitQueue ++ [id] else s.exitQueue
      sleepers := sleepers id s })
    (now : ℕ) :
    (s.current = none ∧ s.stopThen state now edit queue =
        (.error .unknownTask, { s with clock := now })) ∨
      ∃ id t, s.current = some id ∧ s.outline id = some t ∧ t.state = .running ∧
        (s.stopCurrent state now).1 = .ok id ∧
        Dispatches (Function.update s.outline id (some (edit (stopped state t)))) s.idle
          (s.stopThen state now edit queue) := by
  have hallowed : TaskState.canTransition .running state = true := by
    rcases hstate with rfl | rfl <;> rfl
  have hnotReady : state ≠ .ready := by rcases hstate with rfl | rfl <;> simp
  rcases (h.setClock now).stopRunning hguard hallowed now with
    ⟨hnone, hstop⟩ | ⟨id, s₁, t₁, slot, lag, average, hs₁, hcurrent, h₁, hcurrent₁, ht₁, hnotIdle,
      hindex, hlt, hstop⟩
  · exact Or.inl ⟨hnone, by simp only [Scheduler.stopThen, stopCurrent, hstop]⟩
  · -- the stopped task, edited
    set t₂ : TaskControlBlock := edit { t₁ with
      state, resumeKind := .voluntary, schedulerEntity.lag := lag } with ht₂
    obtain ⟨hid, hidle, hentity, hst⟩ := hedit { t₁ with
      state, resumeKind := .voluntary, schedulerEntity.lag := lag }
    -- what the rest of the operation starts from: the task stopped, edited and queued
    set s₂ : Scheduler := { s₁ with
      tasks := s₁.tasks.set slot (some t₂)
      exitQueue := if state = .exited then s₁.exitQueue ++ [id] else s₁.exitQueue
      sleepers := sleepers id { s₁ with
        tasks := s₁.tasks.set slot (some t₂)
        sumWeight := s₁.sumWeight - weightOf t₁
        sumWeightedRuntime := s₁.sumWeightedRuntime - weightedRuntimeOf t₁
        average
        current := none }
      sumWeight := s₁.sumWeight - weightOf t₁
      sumWeightedRuntime := s₁.sumWeightedRuntime - weightedRuntimeOf t₁
      average
      current := none } with hs₂
    have hrun : s.stopThen state now edit queue = s₂.switchToNext (some id) now := by
      simp only [Scheduler.stopThen, stopCurrent, hstop, task, hindex, Option.bind_some,
        List.getElem?_set_self hlt, Option.join_some, Scheduler.setTask, List.set_set, hqueue,
        ← ht₂, ← hs₂]
    have h₂ : Inv s₂ := by
      refine h₁.suspend hcurrent₁ ht₁ ⟨hid, hidle, by rw [hentity], by rw [hentity]⟩
        (Or.inr ⟨hst ▸ hstate, hidle.trans hnotIdle⟩) ?_ ⟨rfl, rfl, rfl, rfl⟩ rfl ?_ ?_ ?_ ?_
      · simp [setTask_eq hindex, hs₂, ht₂]
      · simp [hst, hnotReady, hs₂]
      · simp [hst, hs₂]
      · simp [hst, hnotReady, weightOf, hentity, hs₂]
      · simp [hst, hnotReady, weightedRuntimeOf, hentity, hs₂]
    have hsame : s₁.outline = s.outline := by
      rw [hs₁]
      exact (h.setClock now).slots.outline_charge id now
    have htask : s₂.task = (s₁.setTask id t₂).task := by
      rw [setTask_eq hindex]
      rfl
    have hstopped : s₂.outline = Function.update s.outline id (some (edit (stopped state t₁.outline))) := by
      rw [outline_congr htask, h₁.slots.outline_setTask ht₁, hsame, ht₂, houtline]
      rfl
    have hdispatch := h₂.dispatches rfl (some id) now
    rw [hstopped] at hdispatch
    refine Or.inr ⟨id, t₁.outline, hcurrent, ?_, ?_, ?_, ?_⟩
    · rw [← hsame]
      exact outline_of_task ht₁
    · exact (h₁.placed.placedAs id t₁ ht₁).current_iff.mp hcurrent₁
    · simp only [stopCurrent, hstop]
    · rw [hrun]
      have hidle₂ : s₂.idle = s.idle := by
        rw [hs₂, hs₁]
        exact idle_charge ..
      rwa [hidle₂] at hdispatch

/-! ## Waking -/

/-- The outline of a blocked task once it is woken. -/
def woken (t : TaskControlBlock) : TaskControlBlock :=
  { t with state := .ready, blockReason := none, waitLink := none }

/-- Joining the run queue places the task's entity and leaves the outlines alone. -/
theorem Slots.outline_join (h : s.SlotsOk) (ht : s.task id = some t) :
    (s.join id).outline = s.outline := by
  obtain ⟨slot, hindex, -, -⟩ := h.slot_of_task ht
  obtain ⟨average, wakeup, hjoin⟩ := join_eq ht hindex
  have hset := h.outline_setTask_same (t := { t with
    schedulerEntity := s.placedEntity t.schedulerEntity }) ht rfl
  rw [hjoin]
  rw [setTask_eq hindex] at hset
  exact (outline_congr rfl).trans hset

/-- Waking a blocked task makes it ready and clears its wait link. -/
theorem Inv.outline_makeReady (h : Inv s) (ht₀ : s.task id = some t₀)
    (hblocked : t₀.state = .blocked) :
    (s.makeReady id).outline = Function.update s.outline id (some (woken t₀.outline)) ∧
      (s.makeReady id).current = s.current := by
  obtain ⟨slot, hindex, hslot, hid⟩ := h.slots.slot_of_task ht₀
  have hlt : slot < s.tasks.length := (List.getElem?_eq_some_iff.mp hslot).1
  have hset := h.slots.outline_setTask (t := woken t₀) ht₀
  have hslots := h.slots.setTask (t := woken t₀) ht₀ rfl
  have hlookup : (s.setTask id (woken t₀)).task id = some (woken t₀) := by
    rw [h.slots.task_setTask ht₀, Function.update_self]
  have hmake : s.makeReady id = { ((s.setTask id (woken t₀)).join id) with
      stats.tasksWoken :=
        saturatingSucc ((s.setTask id (woken t₀)).join id).stats.tasksWoken } := by
    simp only [Scheduler.makeReady, ht₀, TaskControlBlock.transition, hblocked,
      TaskState.canTransition, ↓reduceIte, woken]
  rw [setTask_eq hindex] at hset hslots hlookup hmake
  set s₁ : Scheduler := { s with tasks := s.tasks.set slot (some (woken t₀)) } with hs₁
  have hslots₁ : s₁.SlotsOk := hslots
  rw [hmake]
  constructor
  · exact (outline_congr rfl).trans ((hslots₁.outline_join hlookup).trans hset)
  · obtain ⟨average, wakeup, hjoin⟩ := join_eq (s := s₁) hlookup hindex
    have hcurrent : (s₁.join id).current = s₁.current := by rw [hjoin]
    exact hcurrent

/-! ## Creating and reaping tasks -/

/-- A new task is ready, and the other outlines stay. -/
theorem Inv.outline_spawn (h : Inv s) :
    s.spawn.2.outline = Function.update s.outline s.nextTaskId
        (some { taskId := s.nextTaskId, state := .ready }) ∧
      s.spawn.2.current = s.current := by
  have hinserted := h.slots.inserted (t := { taskId := s.nextTaskId, state := .ready }) rfl
  obtain ⟨slot, hindex, -, -⟩ := hinserted.slots.slot_of_task hinserted.task_self
  constructor
  · refine (hinserted.slots.outline_join hinserted.task_self).trans ?_
    funext id
    rw [outline, hinserted.task_eq]
    by_cases heq : id = s.nextTaskId
    · subst heq
      rw [Function.update_self, Function.update_self]
      rfl
    · rw [Function.update_of_ne heq, Function.update_of_ne heq, outline]
  · obtain ⟨average, wakeup, hjoin⟩ := join_eq hinserted.task_self hindex
    exact (congrArg Scheduler.current hjoin).trans hinserted.current_eq

/-- Reaping removes an exited task, if there is one. -/
theorem Inv.outline_reapOne (h : Inv s) :
    s.reapOne.2.current = s.current ∧ (s.reapOne.2.outline = s.outline ∨
      ∃ id t, s.outline id = some t ∧ t.state = .exited ∧
        s.reapOne.2.outline = Function.update s.outline id none) := by
  cases hqueue : s.exitQueue with
  | nil => exact ⟨by simp only [Scheduler.reapOne, hqueue], Or.inl (by simp only [Scheduler.reapOne, hqueue])⟩
  | cons id rest =>
    have hmem : id ∈ s.exitQueue := hqueue ▸ List.mem_cons_self
    obtain ⟨t, ht⟩ := h.placed.live id (Or.inr (Or.inr (Or.inr hmem)))
    have hp := h.placed.placedAs id t ht
    have hexited := hp.exitQueue_iff.mp hmem
    obtain ⟨slot, hindex, hslot, -⟩ := h.slots.slot_of_task ht
    have hcurrent : s.current ≠ some id := fun hc => by
      rw [hp.current_iff.mp hc] at hexited
      cases hexited
    have hreap : s.reapOne = (.ok (some t), { s with
        exitQueue := rest
        index := Function.update s.index id none
        tasks := s.tasks.set slot none
        freeSlots := slot :: s.freeSlots
        stats.tasksReaped := saturatingSucc s.stats.tasksReaped }) := by
      simp only [Scheduler.reapOne, hqueue, if_neg hcurrent, hindex, hslot, Option.join_some]
    refine ⟨by rw [hreap], Or.inr ⟨id, t.outline, outline_of_task ht, hexited, ?_⟩⟩
    rw [hreap]
    funext id'
    have htask := congrFun (h.slots.task_removed hindex) id'
    refine (congrArg (Option.map TaskControlBlock.outline) htask).trans ?_
    by_cases heq : id' = id
    · rw [heq, Function.update_self, Function.update_self]
      rfl
    · rw [Function.update_of_ne heq, Function.update_of_ne heq, outline]

/-! ## Nice values and ticks -/

theorem Inv.outline_setNice (h : Inv s) (id : ℕ) (nice : ℤ) :
    (s.setNice id nice).2.outline = s.outline ∧ (s.setNice id nice).2.current = s.current := by
  unfold Scheduler.setNice
  cases ht₀ : s.task id with
  | none => exact ⟨rfl, rfl⟩
  | some t₀ =>
    have hset := h.slots.outline_setTask_same (t := { t₀ with
      schedulerEntity := t₀.schedulerEntity.renice nice }) ht₀ rfl
    obtain ⟨slot, hindex, -, -⟩ := h.slots.slot_of_task ht₀
    simp only [isInRunnableSet, ht₀]
    split_ifs
    · exact ⟨rfl, rfl⟩
    · rw [refreshAverage_eq]
      exact ⟨(outline_congr rfl).trans hset, by rw [setTask_eq hindex]⟩
    · exact ⟨hset, by rw [setTask_eq hindex]⟩

theorem Inv.outline_tick (h : Inv s) (now : ℕ) :
    (s.tick now).2.outline = s.outline ∧ (s.tick now).2.current = s.current := by
  have h₀ := h.setClock now
  unfold Scheduler.tick
  simp only
  split
  next => exact ⟨rfl, rfl⟩
  next current hcurrent =>
    obtain ⟨hcurrent', -⟩ := Option.filter_eq_some_iff.mp hcurrent
    obtain ⟨t₀, ht₀, hrunning⟩ := h₀.current_task hcurrent'
    obtain ⟨t₁, -, -, -, hcurrent₁, -⟩ := h₀.charge ht₀ hrunning now
    exact ⟨(outline_congr rfl).trans (h₀.slots.outline_charge current now), hcurrent₁⟩

end Scheduler

end SaeOS.Task
