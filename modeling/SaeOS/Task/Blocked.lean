import SaeOS.Task.Selection

/-!
# What happens to a blocked task

A blocked task carries the reason why it waits and the lag with which it left. Operations leave both
alone: a stop adds one blocked task, a wake-up takes one away, and the rest changes none.
-/

namespace SaeOS.Task

/-- What a blocked task carries. -/
structure Rest where
  blockReason : Option BlockReason
  lag : ℤ
  deriving DecidableEq, Repr

/-- What the task carries if it is blocked. -/
def TaskControlBlock.rest (t : TaskControlBlock) : Option Rest :=
  if t.state = .blocked then some ⟨t.blockReason, t.schedulerEntity.lag⟩ else none

theorem TaskControlBlock.rest_of_blocked {t : TaskControlBlock} (h : t.state = .blocked) :
    t.rest = some ⟨t.blockReason, t.schedulerEntity.lag⟩ :=
  if_pos h

theorem TaskControlBlock.rest_eq_some {t : TaskControlBlock} {r : Rest} (h : t.rest = some r) :
    t.state = .blocked ∧ t.blockReason = r.blockReason ∧ t.schedulerEntity.lag = r.lag := by
  unfold TaskControlBlock.rest at h
  split at h
  · next hblocked =>
    obtain rfl := Option.some.inj h
    exact ⟨hblocked, rfl, rfl⟩
  · contradiction

theorem TaskControlBlock.rest_of_state {t : TaskControlBlock} {state : TaskState} (h : t.state = state)
    (hne : state ≠ .blocked := by decide) : t.rest = none :=
  if_neg (h.symm ▸ hne)

namespace Scheduler

variable {s s' s₁ : Scheduler} {id now : ℕ} {t t₀ : TaskControlBlock} {r : Rest}

/-- What the task with this id carries if it is blocked. -/
def rest (s : Scheduler) (id : ℕ) : Option Rest :=
  (s.task id).bind TaskControlBlock.rest

theorem rest_of_task (ht : s.task id = some t) : s.rest id = t.rest := by
  rw [rest, ht, Option.bind_some]

theorem exists_task_of_rest (h : s.rest id = some r) :
    ∃ t, s.task id = some t ∧ t.state = .blocked ∧ t.blockReason = r.blockReason ∧
      t.schedulerEntity.lag = r.lag := by
  obtain ⟨t, ht, hrest⟩ := Option.bind_eq_some_iff.mp h
  exact ⟨t, ht, TaskControlBlock.rest_eq_some hrest⟩

/-! ## Single writes -/

theorem Wrote.rest (h : Wrote s s' id t) (hs : s.SlotsOk) (ht₀ : s.task id = some t₀)
    (hid : t.taskId = t₀.taskId) : s'.rest = Function.update s.rest id t.rest := by
  obtain ⟨-, htask⟩ := h.slots hs ht₀ hid
  funext id'
  rw [Scheduler.rest, htask]
  by_cases heq : id' = id
  · subst heq
    rw [Function.update_self, Function.update_self, Option.bind_some]
  · rw [Function.update_of_ne heq, Function.update_of_ne heq, Scheduler.rest]

theorem Wrote.rest_same (h : Wrote s s' id t) (hs : s.SlotsOk) (ht₀ : s.task id = some t₀)
    (hid : t.taskId = t₀.taskId) (hrest : t.rest = t₀.rest) : s'.rest = s.rest := by
  rw [h.rest hs ht₀ hid, hrest, ← rest_of_task ht₀, Function.update_eq_self]

theorem SameSlots.rest (h : SameSlots s s') : s'.rest = s.rest := by
  funext id
  rw [Scheduler.rest, h.task, Scheduler.rest]

theorem SameSlots.slots (h : SameSlots s s') (hs : s.SlotsOk) : s'.SlotsOk := by
  unfold SlotsOk
  rw [h.tasks_eq, h.freeSlots_eq, h.index_eq, h.nextTaskId_eq]
  exact hs

theorem rest_chargedTask (now : ℕ) (t : TaskControlBlock) (hrunning : t.state = .running) :
    (chargedTask now t).rest = none :=
  TaskControlBlock.rest_of_state ((chargedTask_state now t).trans hrunning)

/-! ## Dispatching and requeueing -/

/-- Only ready tasks are dispatched. -/
theorem rest_switchToNext (hs : s.SlotsOk) (hnone : s.current = none) (previous : Option ℕ) (now : ℕ) :
    (s.switchToNext previous now).2.rest = s.rest := by
  rcases switchToNext_cases hnone previous now with ⟨hsame, -⟩ | ⟨id, t, ht, hready, -, hwrote⟩
  · exact hsame.rest
  · refine hwrote.rest_same hs ht rfl ?_
    rw [TaskControlBlock.rest_of_state hready]
    exact TaskControlBlock.rest_of_state (rfl : _ = TaskState.running)

/-- Requeueing makes the running task ready. -/
theorem Sound.rest_requeueCurrent (h : Sound s) (now : ℕ) :
    ∃ s₁, s.requeueCurrent now = (.ok (), s₁) ∧ s₁.SlotsOk ∧ s₁.rest = s.rest := by
  obtain ⟨s₁, hrequeue, hcases⟩ := requeueCurrent_cases h now
  refine ⟨s₁, hrequeue, ?_⟩
  rcases hcases with ⟨-, rfl⟩ | ⟨id, t, t', -, ht, hrunning, hid, hready, -, hwrote⟩
  · exact ⟨h.slots, rfl⟩
  · refine ⟨(hwrote.slots h.slots ht hid).1, hwrote.rest_same h.slots ht hid ?_⟩
    rw [TaskControlBlock.rest_of_state hready, TaskControlBlock.rest_of_state hrunning]

theorem Sound.rest_schedule (h : Sound s) (now : ℕ) : (s.schedule now).2.rest = s.rest := by
  obtain ⟨s₁, hrequeue, hslots, hrest⟩ := (sound_setClock h now).rest_requeueCurrent now
  simp only [Scheduler.schedule, hrequeue]
  rw [rest_switchToNext (by exact hslots) rfl]
  exact (SameSlots.rest ⟨rfl, rfl, rfl, rfl, rfl⟩).trans hrest

/-- Rewriting the running task without its state. -/
theorem Sound.rest_setTask_running (h : Sound s) (ht : s.task id = some t₀)
    (hrunning : t₀.state = .running) (hid : t.taskId = t₀.taskId) (hstate : t.state = t₀.state) :
    (s.setTask id t).rest = s.rest := by
  refine (wrote_setTask s id t).rest_same h.slots ht hid ?_
  rw [TaskControlBlock.rest_of_state hrunning, TaskControlBlock.rest_of_state (hstate.trans hrunning)]

theorem Inv.rest_preempt (h : Inv s) {stackPointer next : ℕ}
    (hrun : s.preempt stackPointer now = some (next, s')) : s'.rest = s.rest := by
  have hsaved : (s.savedFrame stackPointer).rest = s.rest := by
    unfold Scheduler.savedFrame
    cases hcurrent : s.current with
    | none => rfl
    | some current =>
      obtain ⟨t, ht, hrunning⟩ := h.current_task hcurrent
      simp only [ht]
      exact h.sound.rest_setTask_running ht hrunning rfl rfl
  have hschedule := (h.savedFrame stackPointer).sound.rest_schedule now
  rw [hsaved] at hschedule
  obtain ⟨stats, -, rfl⟩ := preempt_schedule hrun
  exact (SameSlots.rest ⟨rfl, rfl, rfl, rfl, rfl⟩).trans hschedule

theorem Inv.rest_prepareVoluntaryYield (h : Inv s) (now : ℕ) :
    (s.prepareVoluntaryYield now).2.rest = s.rest := by
  obtain heq | ⟨current, t, stats, hcurrent, ht, heq⟩ := prepareVoluntaryYield_cases s now
  · rw [heq]
  · obtain ⟨t', ht', hrunning⟩ := h.current_task hcurrent
    obtain rfl := Option.some.inj (ht.symm.trans ht')
    have hmarked := h.sound.rest_setTask_running (t := { t with resumeKind := .voluntary }) ht hrunning
      rfl rfl
    have hinv : Inv (s.setTask current { t with resumeKind := .voluntary }) :=
      h.setTask ht ⟨rfl, rfl, rfl, rfl⟩
    rw [heq, ← hmarked, ← hinv.sound.rest_schedule now]
    exact SameSlots.rest ⟨rfl, rfl, rfl, rfl, rfl⟩

/-! ## Stopping -/

/-- The first half of `sleep`, `block` and `exit` on what the blocked tasks carry: the stopped task is
added if it blocks, with the lag that it has once it is charged. -/
theorem Sound.rest_stopThen (h : Sound s) {state : TaskState}
    {edit : TaskControlBlock → TaskControlBlock} {queue : ℕ → Scheduler → Scheduler}
    (hallowed : TaskState.canTransition .running state = true)
    (hedit : ∀ t, (edit t).taskId = t.taskId)
    (hqueue : ∀ id s, SameSlots s (queue id s) ∧ (queue id s).current = s.current) (now : ℕ) :
    (s.current = none ∧ (s.stopCurrent state now).1 = .error .unknownTask ∧
        s.stopThen state now edit queue = (.error .unknownTask, { s with clock := now })) ∨
      ∃ id t t', s.current = some id ∧ (s.stopCurrent state now).1 = .ok id ∧
        (s.stopCurrent state now).2.task id = some t' ∧
        (({ s with clock := now } : Scheduler).charge id now).2.task id = some t ∧
        t'.state = state ∧ t'.blockReason = t.blockReason ∧ t'.schedulerEntity = { t.schedulerEntity with
          lag := leavingLag (({ s with clock := now } : Scheduler).charge id now).2.average
            t.schedulerEntity.virtualRuntime } ∧
        (s.stopThen state now edit queue).2.rest = Function.update s.rest id (edit t').rest := by
  have h₀ := sound_setClock h now
  rcases stopRunning_cases h₀ hallowed now with
    ⟨hnone, hstop⟩ | ⟨id, t, t', s₁, hcurrent, ht, hrunning, ht', hstop, hnone, hwrote⟩
  · refine .inl ⟨hnone, by rw [stopCurrent, hstop], ?_⟩
    simp only [stopThen, stopCurrent, hstop]
  · have hid : t'.taskId = t.taskId := by rw [ht', chargedTask_taskId]
    obtain ⟨hcharged, -⟩ := wrote_charge now ht
    have hlookup : (({ s with clock := now } : Scheduler).charge id now).2.task id = some (chargedTask now t) := by
      rw [(hcharged.slots h₀.slots ht (chargedTask_taskId now t)).2, Function.update_self]
    obtain ⟨hslots, htask⟩ := hwrote.slots h₀.slots ht hid
    have hstopped : s₁.task id = some t' := by rw [htask, Function.update_self]
    refine .inr ⟨id, chargedTask now t, t', hcurrent, by rw [stopCurrent, hstop],
      by rw [stopCurrent, hstop]; exact hstopped, hlookup, ?_⟩
    obtain ⟨slot, hindex, -⟩ := Option.bind_eq_some_iff.mp hstopped
    obtain ⟨hsame, hqueued⟩ := hqueue id (s₁.setTask id (edit t'))
    have hset := wrote_setTask s₁ id (edit t')
    have hslots' : (queue id (s₁.setTask id (edit t'))).SlotsOk :=
      hsame.slots (hset.slots hslots hstopped (hedit t')).1
    subst ht'
    refine ⟨rfl, rfl, rfl, ?_⟩
    simp only [stopThen, stopCurrent, hstop, hstopped]
    rw [rest_switchToNext hslots' (by rw [hqueued, setTask_eq hindex]; exact hnone), hsame.rest,
      hset.rest hslots hstopped (hedit _), hwrote.rest h₀.slots ht hid, Function.update_idem]
    rfl

/-! ## Waking -/

/-- A woken task is no longer blocked, and the others stay as they are. -/
theorem Slots.rest_makeReady (h : s.SlotsOk) (ht : s.task id = some t) (hblocked : t.state = .blocked) :
    (s.makeReady id).SlotsOk ∧ (s.makeReady id).rest = Function.update s.rest id none := by
  have hready : t.transition .ready = .ok { t with state := .ready } := by
    rw [TaskControlBlock.transition, hblocked]
    rfl
  set t₁ : TaskControlBlock := { t with state := .ready, blockReason := none, waitLink := none } with ht₁
  have hwrote := wrote_setTask s id t₁
  obtain ⟨hslots, htask⟩ := hwrote.slots h ht rfl
  have hlookup : (s.setTask id t₁).task id = some t₁ := by rw [htask, Function.update_self]
  obtain ⟨t', -, hid, hstate, hjoined, -⟩ := wrote_join hlookup
  have hsame : SameSlots ((s.setTask id t₁).join id) (s.makeReady id) := by
    simp only [makeReady, ht, hready]
    exact ⟨rfl, rfl, rfl, rfl, rfl⟩
  have hready₁ : t₁.state = .ready := rfl
  have hrest : t'.rest = t₁.rest := by
    rw [TaskControlBlock.rest_of_state hready₁, TaskControlBlock.rest_of_state (hstate.trans hready₁)]
  refine ⟨hsame.slots (hjoined.slots hslots hlookup hid).1, ?_⟩
  rw [hsame.rest, hjoined.rest_same hslots hlookup hid hrest, hwrote.rest h ht rfl,
    TaskControlBlock.rest_of_state hready₁]

/-- From `s` to `s'` blocked tasks stay as they are or wake up. -/
structure OnlyWakes (s s' : Scheduler) : Prop where
  slots : s'.SlotsOk
  rest : ∀ id, s'.rest id = s.rest id ∨ s'.rest id = none

theorem onlyWakes_refl (h : s.SlotsOk) : OnlyWakes s s :=
  ⟨h, fun _ => .inl rfl⟩

theorem OnlyWakes.trans (h : OnlyWakes s s₁) (h' : OnlyWakes s₁ s') : OnlyWakes s s' := by
  refine ⟨h'.slots, fun id => ?_⟩
  rcases h'.rest id with hsame | hnone
  · rw [hsame]
    exact h.rest id
  · exact .inr hnone

theorem onlyWakes_makeReady (h : s.SlotsOk) (ht : s.task id = some t) (hblocked : t.state = .blocked) :
    OnlyWakes s (s.makeReady id) := by
  obtain ⟨hslots, hrest⟩ := Slots.rest_makeReady h ht hblocked
  refine ⟨hslots, fun id' => ?_⟩
  rw [hrest]
  by_cases heq : id' = id
  · exact .inr (by rw [heq, Function.update_self])
  · exact .inl (Function.update_of_ne heq ..)

theorem SlotsOk.onlyWakes (h : s.SlotsOk) (hroused : Roused True s s') : OnlyWakes s s' := by
  induction hroused with
  | refl => exact onlyWakes_refl h
  | pop _ _ ih => exact ih.trans ⟨ih.slots, fun _ => .inl rfl⟩
  | makeReady _ ht hblocked ih => exact ih.trans (onlyWakes_makeReady ih.slots ht hblocked)

/-! ## The other operations -/

theorem Slots.rest_setNice (h : s.SlotsOk) (id : ℕ) (nice : ℤ) : (s.setNice id nice).2.rest = s.rest := by
  unfold Scheduler.setNice
  cases ht : s.task id with
  | none => rfl
  | some t =>
    have hset := (wrote_setTask s id { t with
      schedulerEntity := t.schedulerEntity.renice nice }).rest_same h ht rfl rfl
    dsimp only
    split_ifs
    · rfl
    · rw [refreshAverage_eq]
      exact (SameSlots.rest ⟨rfl, rfl, rfl, rfl, rfl⟩).trans hset
    · exact hset

theorem Sound.rest_tick (h : Sound s) (now : ℕ) : (s.tick now).2.rest = s.rest := by
  unfold Scheduler.tick
  dsimp only
  split
  · rfl
  · next current hfilter =>
    obtain ⟨hcurrent, -⟩ := Option.filter_eq_some_iff.mp hfilter
    obtain ⟨t, ht, hrunning⟩ := h.current_running current hcurrent
    obtain ⟨hwrote, -⟩ := wrote_charge (s := { s with clock := now }) now ht
    have hcharged := hwrote.rest_same h.slots ht (chargedTask_taskId now t) (by
      rw [rest_chargedTask now t hrunning, TaskControlBlock.rest_of_state hrunning])
    exact (SameSlots.rest ⟨rfl, rfl, rfl, rfl, rfl⟩).trans hcharged

/-- A new task is not blocked. -/
theorem Slots.rest_spawn (h : s.SlotsOk) : s.spawn.2.rest = s.rest := by
  set t : TaskControlBlock := { taskId := s.nextTaskId, state := .ready } with ht
  have hinserted := h.inserted (t := t) rfl
  have hlookup := hinserted.task_self
  obtain ⟨t', -, hid, hstate, hjoined, -⟩ := wrote_join hlookup
  have hready : t.state = .ready := rfl
  have hnone := TaskControlBlock.rest_of_state hready
  have hrest : t'.rest = t.rest := (TaskControlBlock.rest_of_state (hstate.trans hready)).trans hnone.symm
  refine (hjoined.rest_same hinserted.slots hlookup hid hrest).trans ?_
  funext id
  rw [rest, rest, hinserted.task_eq]
  by_cases heq : id = s.nextTaskId
  · have hfresh : s.task s.nextTaskId = none := by
      cases hlive : s.task s.nextTaskId with
      | none => rfl
      | some t₀ => exact absurd (lt_of_task h hlive) (lt_irrefl _)
    rw [heq, Function.update_self, hfresh, Option.bind_some, hnone, Option.bind_none]
  · rw [Function.update_of_ne heq]

/-- An exited task is not blocked. -/
theorem Inv.rest_reapOne (h : Inv s) : s.reapOne.2.rest = s.rest := by
  rcases reapOne_cases h.sound with ⟨-, htask, -⟩ | ⟨t, -, hmem, ht, -, -, -, -, htask⟩
  · funext id
    rw [rest, rest, htask]
  · have hexited := (h.placed.placedAs _ t ht).exitQueue_iff.mp hmem
    funext id
    rw [rest, htask]
    by_cases heq : id = t.taskId
    · rw [heq, Function.update_self, Option.bind_none, rest_of_task ht,
        TaskControlBlock.rest_of_state hexited]
    · rw [Function.update_of_ne heq, rest]

/-! ## Steps -/

/-- Nobody but the running task can be put to rest. -/
theorem Inv.rest_stopThen_of_rest (h : Inv s) {state : TaskState}
    {edit : TaskControlBlock → TaskControlBlock} {queue : ℕ → Scheduler → Scheduler}
    (hallowed : TaskState.canTransition .running state = true)
    (hedit : ∀ t, (edit t).taskId = t.taskId)
    (hqueue : ∀ id s, SameSlots s (queue id s) ∧ (queue id s).current = s.current) (now : ℕ)
    (hrest : s.rest id = some r) : (s.stopThen state now edit queue).2.rest id = some r := by
  rcases h.sound.rest_stopThen hallowed hedit hqueue now with
    ⟨-, -, hrun⟩ | ⟨current, t, t', hcurrent, -, -, -, -, -, -, hrun⟩
  · rw [hrun]
    exact hrest
  · have hne : id ≠ current := by
      rintro rfl
      obtain ⟨t₀, ht₀, hrunning⟩ := h.current_task hcurrent
      rw [rest_of_task ht₀, TaskControlBlock.rest_of_state hrunning] at hrest
      contradiction
    rw [hrun, Function.update_of_ne hne, hrest]

/-- A blocked task keeps what it carries until it wakes up. -/
theorem Inv.rest_step (h : Inv s) {op : Op} (hstep : Step s op s') (hrest : s.rest id = some r) :
    s'.rest id = some r ∨ s'.rest id = none := by
  have hwakes : OnlyWakes s s' → s'.rest id = some r ∨ s'.rest id = none := by
    intro hwake
    rw [← hrest]
    exact hwake.rest id
  have hsame : s'.rest = s.rest → s'.rest id = some r ∨ s'.rest id = none := by
    intro heq
    exact .inl (by rw [heq, hrest])
  cases op with
  | spawn => exact hsame (hstep ▸ Slots.rest_spawn h.slots)
  | setNice id nice => exact hsame (hstep ▸ Slots.rest_setNice h.slots id nice)
  | tick now => exact hsame (hstep ▸ h.sound.rest_tick now)
  | yieldCurrent now => exact hsame (hstep ▸ h.sound.rest_schedule now)
  | preempt stackPointer now =>
    obtain ⟨next, hrun⟩ := hstep
    exact hsame (h.rest_preempt hrun)
  | prepareVoluntaryYield now => exact hsame (hstep ▸ h.rest_prepareVoluntaryYield now)
  | sleepCurrentUntil deadline now =>
    obtain ⟨-, rfl⟩ := hstep
    left
    rw [Scheduler.sleepCurrentUntil]
    refine h.rest_stopThen_of_rest ?_ ?_ ?_ now hrest
    · rfl
    · exact fun _ => rfl
    · exact fun _ _ => ⟨⟨rfl, rfl, rfl, rfl, rfl⟩, rfl⟩
  | wakeExpired now => exact hwakes (hstep ▸ h.slots.onlyWakes (.wakeExpired .refl now))
  | blockCurrent reason queue now =>
    obtain ⟨-, rfl⟩ := hstep
    left
    rw [Scheduler.blockCurrent]
    refine h.rest_stopThen_of_rest ?_ ?_ ?_ now hrest
    · rfl
    · exact fun _ => rfl
    · exact fun _ _ => ⟨⟨rfl, rfl, rfl, rfl, rfl⟩, rfl⟩
  | wakeOne queue => exact hwakes (hstep ▸ h.slots.onlyWakes (.wakeOne .refl queue))
  | wakeAll queue => exact hwakes (hstep ▸ h.slots.onlyWakes (.wakeAll .refl queue _ 0))
  | wakeTask id => exact hwakes (hstep ▸ h.slots.onlyWakes (.wakeTask .refl id))
  | cancelWait id queue => exact hwakes (hstep ▸ h.slots.onlyWakes (.cancelWait .refl id queue))
  | exitCurrent status now =>
    obtain ⟨-, rfl⟩ := hstep
    left
    rw [Scheduler.exitCurrent]
    refine h.rest_stopThen_of_rest ?_ ?_ ?_ now hrest
    · rfl
    · exact fun _ => rfl
    · exact fun _ _ => ⟨⟨rfl, rfl, rfl, rfl, rfl⟩, rfl⟩
  | reapOne => exact hsame (hstep ▸ h.rest_reapOne)

end Scheduler

end SaeOS.Task
