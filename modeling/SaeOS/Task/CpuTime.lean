import SaeOS.Task.SchedulerRun

/-!
# Charging CPU time

What each operation of the scheduler does to a task's `exec_runtime` and to the time from which the task
is charged next. An operation that is told the time charges the running task and dispatches at that
time; the others leave both alone. Nothing is asked of the callers here: the idle task may block, there
may be several of them, and an operation may fail.
-/

namespace SaeOS.Task

/-- What a task carries of the time that it was charged. -/
structure Meter where
  isIdle : Bool
  execRuntime : ℕ
  dispatchedAt : ℕ

def TaskControlBlock.meter (t : TaskControlBlock) : Meter :=
  ⟨t.isIdle, t.schedulerEntity.execRuntime, t.dispatchedAt⟩

/-- A meter that is charged. -/
def Meter.charge (now : ℕ) (m : Meter) : Meter where
  isIdle := m.isIdle
  execRuntime :=
    if m.isIdle then m.execRuntime else min (m.execRuntime + (now - m.dispatchedAt)) (2 ^ 64 - 1)
  dispatchedAt := now

namespace Scheduler

variable {s s' s'' : Scheduler} {id now : ℕ} {t t' t₀ : TaskControlBlock}

/-- The meter of the task with this id. -/
def meter (s : Scheduler) (id : ℕ) : Option Meter :=
  (s.task id).map TaskControlBlock.meter

/-! ## What holds whatever the callers do -/

/-- The running task is live and running, and the idle task is marked as one. -/
structure Sound (s : Scheduler) : Prop where
  slots : s.SlotsOk
  current_running : ∀ id, s.current = some id → ∃ t, s.task id = some t ∧ t.state = .running
  idle_isIdle : ∀ id, s.idle = some id →
    id < s.nextTaskId ∧ ∀ t, s.task id = some t → t.isIdle = true

/-- `s'` is `s` with one task rewritten, as far as the slots go. -/
structure Wrote (s s' : Scheduler) (id : ℕ) (t : TaskControlBlock) : Prop where
  tasks_eq : s'.tasks = (s.setTask id t).tasks
  index_eq : s'.index = s.index
  freeSlots_eq : s'.freeSlots = s.freeSlots
  nextTaskId_eq : s'.nextTaskId = s.nextTaskId
  idle_eq : s'.idle = s.idle

theorem wrote_setTask (s : Scheduler) (id : ℕ) (t : TaskControlBlock) :
    Wrote s (s.setTask id t) id t := by
  unfold setTask
  split
  · rename_i hindex
    exact ⟨by simp only [setTask, hindex], rfl, rfl, rfl, rfl⟩
  · rename_i slot hindex
    exact ⟨by simp only [setTask, hindex], rfl, rfl, rfl, rfl⟩

theorem Wrote.trans (h : Wrote s s' id t) (h' : Wrote s' s'' id t') : Wrote s s'' id t' where
  tasks_eq := by
    rw [h'.tasks_eq]
    unfold setTask
    rw [h.index_eq]
    split
    · rename_i hindex
      rw [h.tasks_eq, Scheduler.setTask, hindex]
    · rename_i slot hindex
      simp only [h.tasks_eq, Scheduler.setTask, hindex, List.set_set]
  index_eq := h'.index_eq.trans h.index_eq
  freeSlots_eq := h'.freeSlots_eq.trans h.freeSlots_eq
  nextTaskId_eq := h'.nextTaskId_eq.trans h.nextTaskId_eq
  idle_eq := h'.idle_eq.trans h.idle_eq

theorem Wrote.slots (h : Wrote s s' id t) (hs : s.SlotsOk) (ht₀ : s.task id = some t₀)
    (hid : t.taskId = t₀.taskId) : s'.SlotsOk ∧ s'.task = Function.update s.task id (some t) :=
  hs.write ht₀ hid h.tasks_eq ⟨h.index_eq, h.freeSlots_eq, h.nextTaskId_eq⟩

/-- Rewriting a task keeps what is sound. -/
theorem Wrote.sound (h : Wrote s s' id t) (hs : Sound s) (ht₀ : s.task id = some t₀)
    (hid : t.taskId = t₀.taskId) (hidle : t.isIdle = t₀.isIdle)
    (hcurrent : ∀ id', s'.current = some id' →
      if id' = id then t.state = .running else s.current = some id') : Sound s' := by
  obtain ⟨hslots, htask⟩ := h.slots hs.slots ht₀ hid
  refine ⟨hslots, fun id' hid' => ?_, fun id' hid' => ?_⟩
  · have hrunning := hcurrent id' hid'
    rw [htask]
    split at hrunning
    · rename_i heq
      exact ⟨t, by rw [heq, Function.update_self], hrunning⟩
    · rename_i hne
      rw [Function.update_of_ne hne]
      exact hs.current_running id' hrunning
  · rw [h.idle_eq] at hid'
    obtain ⟨hlt, hmarked⟩ := hs.idle_isIdle id' hid'
    refine ⟨h.nextTaskId_eq ▸ hlt, fun t' ht' => ?_⟩
    rw [htask] at ht'
    by_cases heq : id' = id
    · subst heq
      rw [Function.update_self] at ht'
      obtain rfl := Option.some.inj ht'
      exact hidle.trans (hmarked t₀ ht₀)
    · rw [Function.update_of_ne heq] at ht'
      exact hmarked t' ht'

theorem Wrote.meter (h : Wrote s s' id t) (hs : s.SlotsOk) (ht₀ : s.task id = some t₀)
    (hid : t.taskId = t₀.taskId) : s'.meter = Function.update s.meter id (some t.meter) := by
  obtain ⟨-, htask⟩ := h.slots hs ht₀ hid
  funext id'
  rw [Scheduler.meter, htask]
  by_cases heq : id' = id
  · subst heq
    rw [Function.update_self, Function.update_self, Option.map_some]
  · rw [Function.update_of_ne heq, Function.update_of_ne heq, Scheduler.meter]

/-- Rewriting a task without its meter. -/
theorem Wrote.meter_same (h : Wrote s s' id t) (hs : s.SlotsOk) (ht₀ : s.task id = some t₀)
    (hid : t.taskId = t₀.taskId) (hmeter : t.meter = t₀.meter) : s'.meter = s.meter := by
  rw [h.meter hs ht₀ hid, hmeter]
  refine Function.update_eq_self_iff.mpr ?_
  rw [Scheduler.meter, ht₀, Option.map_some]

/-! ## The parts of an operation -/

/-- The task that `charge` leaves. -/
def chargedTask (now : ℕ) (t : TaskControlBlock) : TaskControlBlock :=
  if t.isIdle then { t with dispatchedAt := now }
  else { t with
    dispatchedAt := now
    schedulerEntity := (t.schedulerEntity.account (now - t.dispatchedAt)).2 }

theorem account_execRuntime (e : EevdfEntity) (ran : ℕ) :
    (e.account ran).2.execRuntime = min (e.execRuntime + ran) (2 ^ 64 - 1) := by
  simp only [EevdfEntity.account]
  split_ifs <;> rfl

@[simp]
theorem chargedTask_taskId (now : ℕ) (t : TaskControlBlock) : (chargedTask now t).taskId = t.taskId := by
  unfold chargedTask
  split <;> rfl

@[simp]
theorem chargedTask_state (now : ℕ) (t : TaskControlBlock) : (chargedTask now t).state = t.state := by
  unfold chargedTask
  split <;> rfl

@[simp]
theorem chargedTask_meter (now : ℕ) (t : TaskControlBlock) :
    (chargedTask now t).meter = t.meter.charge now := by
  unfold chargedTask
  split
  · rename_i hidle
    simp [TaskControlBlock.meter, Meter.charge, hidle]
  · rename_i hidle
    simp [TaskControlBlock.meter, Meter.charge, hidle, account_execRuntime]

theorem wrote_charge (now : ℕ) (ht : s.task id = some t) :
    Wrote s (s.charge id now).2 id (chargedTask now t) ∧
      (s.charge id now).2.current = s.current := by
  obtain ⟨slot, hindex, -⟩ := Option.bind_eq_some_iff.mp ht
  simp only [charge, ht, chargedTask]
  split
  · exact ⟨wrote_setTask .., by rw [setTask_eq hindex]⟩
  · rw [refreshAverage_eq, setTask_eq hindex]
    exact ⟨⟨by rw [setTask_eq hindex], rfl, rfl, rfl, rfl⟩, rfl⟩

/-- The lag that a task takes along when it stops being runnable. -/
def leavingLag (average runtime : ℤ) : ℤ :=
  max (-lagLimit) (min (average - runtime) lagLimit)

theorem wrote_leave (ht : s.task id = some t) :
    Wrote s (s.leave id) id { t with
      schedulerEntity.lag := leavingLag s.average t.schedulerEntity.virtualRuntime } ∧
      (s.leave id).current = s.current := by
  obtain ⟨slot, hindex, -⟩ := Option.bind_eq_some_iff.mp ht
  simp only [leave, ht]
  rw [refreshAverage_eq, setTask_eq hindex]
  exact ⟨⟨by rw [setTask_eq hindex]; rfl, rfl, rfl, rfl, rfl⟩, rfl⟩

theorem wrote_join (ht : s.task id = some t) :
    ∃ t', t'.meter = t.meter ∧ t'.taskId = t.taskId ∧ t'.state = t.state ∧
      Wrote s (s.join id) id t' ∧ (s.join id).current = s.current := by
  obtain ⟨slot, hindex, -⟩ := Option.bind_eq_some_iff.mp ht
  obtain ⟨average, wakeup, hjoin⟩ := join_eq ht hindex
  refine ⟨{ t with schedulerEntity := s.placedEntity t.schedulerEntity }, rfl, rfl, rfl, ?_,
    by rw [hjoin]⟩
  rw [hjoin]
  exact ⟨by rw [setTask_eq hindex], rfl, rfl, rfl, rfl⟩

/-- Picking a task only takes it off the run queue. -/
theorem pickNext_eq (s : Scheduler) : ∃ q, s.pickNext.2 = { s with runQueue := q } := by
  unfold pickNext
  split
  · exact ⟨s.runQueue, rfl⟩
  · dsimp only
    split
    · exact ⟨s.runQueue, rfl⟩
    · exact ⟨_, rfl⟩

/-- `s'` has the slots of `s`. -/
structure SameSlots (s s' : Scheduler) : Prop where
  tasks_eq : s'.tasks = s.tasks
  index_eq : s'.index = s.index
  freeSlots_eq : s'.freeSlots = s.freeSlots
  nextTaskId_eq : s'.nextTaskId = s.nextTaskId
  idle_eq : s'.idle = s.idle

theorem SameSlots.task (h : SameSlots s s') : s'.task = s.task := by
  funext id
  simp only [Scheduler.task, h.index_eq, h.tasks_eq]

theorem SameSlots.meter (h : SameSlots s s') : s'.meter = s.meter := by
  funext id
  rw [Scheduler.meter, h.task, Scheduler.meter]

theorem SameSlots.sound (h : SameSlots s s') (hs : Sound s)
    (hcurrent : s'.current = s.current ∨ s'.current = none) : Sound s' := by
  refine ⟨?_, fun id hid => ?_, fun id hid => ?_⟩
  · unfold SlotsOk
    rw [h.tasks_eq, h.freeSlots_eq, h.index_eq, h.nextTaskId_eq]
    exact hs.slots
  · rw [h.task]
    rcases hcurrent with hcurrent | hcurrent <;> rw [hcurrent] at hid
    · exact hs.current_running id hid
    · contradiction
  · rw [h.task, h.nextTaskId_eq]
    exact hs.idle_isIdle id (h.idle_eq ▸ hid)

/-- `switch_to_next` dispatches one task at this time, or leaves the CPU to nobody. -/
theorem switchToNext_cases (hnone : s.current = none) (previous : Option ℕ) (now : ℕ) :
    (SameSlots s (s.switchToNext previous now).2 ∧ (s.switchToNext previous now).2.current = none) ∨
      ∃ id t, s.task id = some t ∧ t.state = .ready ∧
        (s.switchToNext previous now).2.current = some id ∧
        Wrote s (s.switchToNext previous now).2 id
          { t with state := .running, dispatchedAt := now, sliceStart := now } := by
  unfold switchToNext
  obtain ⟨q, hq⟩ := pickNext_eq { s with wakeupPreempt := false }
  generalize ({ s with wakeupPreempt := false } : Scheduler).pickNext = picked at hq
  obtain ⟨next, s₁⟩ := picked
  dsimp only at hq
  subst hq
  dsimp only
  cases next with
  | none =>
    refine .inl ?_
    dsimp only
    split <;> exact ⟨⟨rfl, rfl, rfl, rfl, rfl⟩, rfl⟩
  | some id =>
    have htask : Scheduler.task { s with wakeupPreempt := false, runQueue := q } id = s.task id := rfl
    dsimp only
    rw [htask]
    cases ht : s.task id with
    | none => exact .inl ⟨⟨rfl, rfl, rfl, rfl, rfl⟩, hnone⟩
    | some t =>
      dsimp only
      cases hrun : t.transition .running with
      | error e => exact .inl ⟨⟨rfl, rfl, rfl, rfl, rfl⟩, hnone⟩
      | ok t' =>
        have ht' : t.state = .ready ∧ t' = { t with state := .running } := by
          unfold TaskControlBlock.transition at hrun
          split at hrun
          · next hallowed =>
            refine ⟨?_, (Except.ok.inj hrun).symm⟩
            cases hstate : t.state <;> simp_all [TaskState.canTransition]
          · contradiction
        obtain ⟨hready, rfl⟩ := ht'
        refine .inr ⟨id, t, ht, hready, ?_⟩
        obtain ⟨slot, hindex, -⟩ := Option.bind_eq_some_iff.mp ht
        have hset : ∀ t, Scheduler.setTask { s with wakeupPreempt := false, runQueue := q } id t =
            { s with wakeupPreempt := false, runQueue := q, tasks := s.tasks.set slot (some t) } :=
          fun t => setTask_eq (s := { s with wakeupPreempt := false, runQueue := q }) hindex
        dsimp only
        rw [hset]
        split <;> exact ⟨rfl, ⟨by rw [setTask_eq hindex], rfl, rfl, rfl, rfl⟩⟩

/-- The first half of `schedule` charges the running task and makes it ready. -/
theorem requeueCurrent_cases (h : Sound s) (now : ℕ) :
    ∃ s₁, s.requeueCurrent now = (.ok (), s₁) ∧ ((s.current = none ∧ s₁ = s) ∨
      ∃ id t t', s.current = some id ∧ s.task id = some t ∧ t.state = .running ∧
        t'.taskId = t.taskId ∧ t'.state = .ready ∧ t'.meter = t.meter.charge now ∧
        Wrote s s₁ id t') := by
  unfold requeueCurrent
  cases hcurrent : s.current with
  | none => exact ⟨s, rfl, .inl ⟨rfl, rfl⟩⟩
  | some id =>
    obtain ⟨t, ht, hrunning⟩ := h.current_running id hcurrent
    obtain ⟨hwrote, hsame⟩ := wrote_charge now ht
    obtain ⟨-, htask⟩ := hwrote.slots h.slots ht (chargedTask_taskId now t)
    have hcharged : (s.charge id now).2.task id = some (chargedTask now t) := by
      rw [htask, Function.update_self]
    have hready : (chargedTask now t).transition .ready =
        .ok { chargedTask now t with state := .ready } := by
      rw [TaskControlBlock.transition, chargedTask_state, hrunning]
      rfl
    simp only [ht, hrunning, ↓reduceIte, hcharged, hready]
    split
    · exact ⟨_, rfl, .inr ⟨id, t, { chargedTask now t with state := .ready }, rfl, ht, hrunning,
        chargedTask_taskId now t, rfl, chargedTask_meter now t, hwrote.trans (wrote_setTask ..)⟩⟩
    · set t' : TaskControlBlock := { chargedTask now t with
        state := .ready, schedulerEntity.enqueueTime := (s.charge id now).2.clock } with ht'
      have hset := hwrote.trans (wrote_setTask (s.charge id now).2 id t')
      exact ⟨_, rfl, .inr ⟨id, t, t', rfl, ht, hrunning, chargedTask_taskId now t, rfl,
        chargedTask_meter now t,
        ⟨hset.tasks_eq, hset.index_eq, hset.freeSlots_eq, hset.nextTaskId_eq, hset.idle_eq⟩⟩⟩

/-- `stop_current` charges the running task and takes it off the CPU; it fails where nothing runs. -/
theorem stopRunning_cases (h : Sound s) {state : TaskState}
    (hallowed : TaskState.canTransition .running state = true) (now : ℕ) :
    (s.current = none ∧ s.stopRunning state now = (.error .unknownTask, s)) ∨
      ∃ id t t' s₁, s.current = some id ∧ s.task id = some t ∧ t.state = .running ∧
        t' = { chargedTask now t with
          resumeKind := .voluntary
          state
          schedulerEntity.lag := leavingLag (s.charge id now).2.average
            (chargedTask now t).schedulerEntity.virtualRuntime } ∧
        s.stopRunning state now = (.ok id, s₁) ∧ s₁.current = none ∧ Wrote s s₁ id t' := by
  unfold stopRunning
  cases hcurrent : s.current with
  | none => exact .inl ⟨rfl, rfl⟩
  | some id =>
    obtain ⟨t, ht, hrunning⟩ := h.current_running id hcurrent
    obtain ⟨hwrote, -⟩ := wrote_charge now ht
    obtain ⟨hslots, htask⟩ := hwrote.slots h.slots ht (chargedTask_taskId now t)
    have hcharged : (s.charge id now).2.task id = some (chargedTask now t) := by
      rw [htask, Function.update_self]
    obtain ⟨hleft, -⟩ := wrote_leave hcharged
    set t' : TaskControlBlock := { chargedTask now t with
      schedulerEntity.lag := leavingLag (s.charge id now).2.average
        (chargedTask now t).schedulerEntity.virtualRuntime } with ht'
    have hleave : ((s.charge id now).2.leave id).task id = some t' := by
      rw [(hleft.slots hslots hcharged rfl).2, Function.update_self]
    have hstop : ({ t' with resumeKind := .voluntary } : TaskControlBlock).transition state =
        .ok { t' with resumeKind := .voluntary, state } := by
      rw [TaskControlBlock.transition, ht', chargedTask_state, hrunning, if_pos hallowed]
    simp only [ht, hrunning, not_true_eq_false, ↓reduceIte, hleave, hstop, ne_eq]
    have hset := (hwrote.trans hleft).trans (wrote_setTask ((s.charge id now).2.leave id) id
      { t' with resumeKind := .voluntary, state })
    refine .inr ⟨id, t, { t' with resumeKind := .voluntary, state }, _, rfl, ht, hrunning, rfl, rfl, rfl,
      ⟨hset.tasks_eq, hset.index_eq, hset.freeSlots_eq, hset.nextTaskId_eq, hset.idle_eq⟩⟩

/-! ## Operations that are told the time -/

/-- The meters once the running task is charged. -/
def chargedMeters (meters : ℕ → Option Meter) (now : ℕ) : Option ℕ → ℕ → Option Meter
  | none => meters
  | some id => Function.update meters id ((meters id).map (Meter.charge now))

/-- From `s` to `s'` the running task was charged up to `now`, and the task that runs in `s'` is charged
from `now` on. -/
structure Charges (s s' : Scheduler) (now : ℕ) : Prop where
  sound : Sound s'
  next_eq : s'.nextTaskId = s.nextTaskId
  charged : ∀ id, (s'.meter id).map (fun m => (m.isIdle, m.execRuntime)) =
    (chargedMeters s.meter now s.current id).map fun m => (m.isIdle, m.execRuntime)
  dispatched : ∀ id m, s'.current = some id → s'.meter id = some m → m.isIdle = false →
    m.dispatchedAt = now

/-- What is left once the running task is charged and off the CPU. -/
structure Vacated (s s₁ : Scheduler) (now : ℕ) : Prop where
  sound : Sound s₁
  current_none : s₁.current = none
  next_eq : s₁.nextTaskId = s.nextTaskId
  meter_eq : s₁.meter = chargedMeters s.meter now s.current

theorem vacated_of_wrote (h : Sound s) {s₁ : Scheduler} (hcurrent : s.current = some id)
    (ht : s.task id = some t) (hid : t'.taskId = t.taskId) (hmeter : t'.meter = t.meter.charge now)
    (hwrote : Wrote s s₁ id t') (hnone : s₁.current = none) : Vacated s s₁ now where
  sound := hwrote.sound h ht hid (congrArg Meter.isIdle hmeter) fun id' hid' =>
    absurd (hnone.symm.trans hid') (by simp)
  current_none := hnone
  next_eq := hwrote.nextTaskId_eq
  meter_eq := by
    rw [hwrote.meter h.slots ht hid, hcurrent, chargedMeters, hmeter, meter, ht, Option.map_some,
      Option.map_some]

theorem Vacated.switchToNext {s₁ : Scheduler} (h : Vacated s s₁ now) (previous : Option ℕ) :
    Charges s (s₁.switchToNext previous now).2 now := by
  rcases switchToNext_cases h.current_none previous now with
    ⟨hsame, hnone⟩ | ⟨id, t, ht, -, hcurrent, hwrote⟩
  · refine ⟨hsame.sound h.sound (.inr hnone), hsame.nextTaskId_eq.trans h.next_eq, fun id => ?_,
      fun id m hid => absurd (hnone.symm.trans hid) (by simp)⟩
    rw [hsame.meter, h.meter_eq]
  · have hmeter := hwrote.meter h.sound.slots ht rfl
    refine ⟨hwrote.sound h.sound ht rfl rfl fun id' hid' => ?_,
      hwrote.nextTaskId_eq.trans h.next_eq, fun id' => ?_, fun id' m hid' hm hidle => ?_⟩
    · rw [hcurrent] at hid'
      rw [if_pos (Option.some.inj hid').symm]
    · rw [hmeter, ← h.meter_eq]
      by_cases heq : id' = id
      · subst heq
        rw [Function.update_self, meter, ht]
        rfl
      · rw [Function.update_of_ne heq]
    · rw [hcurrent] at hid'
      obtain rfl := Option.some.inj hid'
      rw [hmeter, Function.update_self] at hm
      obtain rfl := Option.some.inj hm
      rfl

/-- What is charged does not depend on the clock and the counters. -/
theorem Charges.congr {s₀ s₁ : Scheduler} (h : Charges s₀ s' now) (hmeter : s₀.meter = s.meter)
    (hcurrent : s₀.current = s.current) (hnext : s₀.nextTaskId = s.nextTaskId)
    (hsame : SameSlots s' s₁) (hcurrent' : s₁.current = s'.current) : Charges s s₁ now where
  sound := hsame.sound h.sound (.inl hcurrent')
  next_eq := hsame.nextTaskId_eq.trans (h.next_eq.trans hnext)
  charged id := by rw [hsame.meter, h.charged, hmeter, hcurrent]
  dispatched id m hid hm := h.dispatched id m (hcurrent' ▸ hid) (hsame.meter ▸ hm)

theorem sound_setClock (h : Sound s) (now : ℕ) : Sound { s with clock := now } :=
  ⟨h.slots, h.current_running, h.idle_isIdle⟩

theorem charges_schedule (h : Sound s) (now : ℕ) : Charges s (s.schedule now).2 now := by
  have h₀ := sound_setClock h now
  obtain ⟨s₁, hrequeue, hcases⟩ := requeueCurrent_cases h₀ now
  have hvacated : Vacated { s with clock := now } { s₁ with current := none } now := by
    rcases hcases with ⟨hnone, rfl⟩ | ⟨id, t, t', hcurrent, ht, -, hid, -, hmeter, hwrote⟩
    · have hsame : SameSlots { s with clock := now } { s with clock := now, current := none } :=
        ⟨rfl, rfl, rfl, rfl, rfl⟩
      exact ⟨hsame.sound h₀ (.inr rfl), rfl, rfl, by rw [hsame.meter, hnone]; rfl⟩
    · exact vacated_of_wrote h₀ hcurrent ht hid hmeter ⟨hwrote.tasks_eq, hwrote.index_eq,
        hwrote.freeSlots_eq, hwrote.nextTaskId_eq, hwrote.idle_eq⟩ rfl
  simp only [schedule, hrequeue]
  exact (hvacated.switchToNext s.current).congr rfl rfl rfl ⟨rfl, rfl, rfl, rfl, rfl⟩ rfl

/-- A change of the running task that leaves its meter alone, before it is charged. -/
theorem Charges.of_setTask {f : TaskControlBlock → TaskControlBlock} (h : Sound s)
    (hcurrent : s.current = some id) (ht : s.task id = some t) (hid : (f t).taskId = t.taskId)
    (hmeter : (f t).meter = t.meter) (hstate : (f t).state = t.state)
    (hcharges : Sound (s.setTask id (f t)) → Charges (s.setTask id (f t)) s' now) :
    Charges s s' now := by
  have hwrote := wrote_setTask s id (f t)
  obtain ⟨slot, hindex, -⟩ := Option.bind_eq_some_iff.mp ht
  have hsame : (s.setTask id (f t)).current = s.current := by rw [setTask_eq hindex]
  have hsound : Sound (s.setTask id (f t)) := by
    refine hwrote.sound h ht hid (congrArg Meter.isIdle hmeter) fun id' hid' => ?_
    rw [hsame] at hid'
    split
    · obtain ⟨t₁, ht₁, hrunning⟩ := h.current_running id hcurrent
      obtain rfl := Option.some.inj (ht.symm.trans ht₁)
      exact hstate.trans hrunning
    · exact hid'
  exact (hcharges hsound).congr (hwrote.meter_same h.slots ht hid hmeter) hsame
    hwrote.nextTaskId_eq ⟨rfl, rfl, rfl, rfl, rfl⟩ rfl

theorem charges_preempt (h : Sound s) {stackPointer next : ℕ}
    (hrun : s.preempt stackPointer now = some (next, s')) : Charges s s' now := by
  have hcharges : Charges s ((s.savedFrame stackPointer).schedule now).2 now := by
    unfold Scheduler.savedFrame
    cases hcurrent : s.current with
    | none => exact charges_schedule h now
    | some id =>
      obtain ⟨t, ht, -⟩ := h.current_running id hcurrent
      simp only [ht]
      exact .of_setTask (f := fun t => { t with
        interruptStackPointer := stackPointer, resumeKind := .interrupt }) h hcurrent ht rfl rfl rfl
        fun hsound => charges_schedule hsound now
  obtain ⟨stats, -, rfl⟩ := preempt_schedule hrun
  exact hcharges.congr rfl rfl rfl ⟨rfl, rfl, rfl, rfl, rfl⟩ rfl

/-- An operation that is told the time where nothing runs. -/
theorem charges_of_idle (h : Sound s) (hnone : s.current = none) (hsame : SameSlots s s')
    (hcurrent : s'.current = none) : Charges s s' now where
  sound := hsame.sound h (.inr hcurrent)
  next_eq := hsame.nextTaskId_eq
  charged id := by rw [hsame.meter, hnone]; rfl
  dispatched id m hid := absurd (hcurrent.symm.trans hid) (by simp)

theorem charges_prepareVoluntaryYield (h : Sound s) (now : ℕ) :
    Charges s (s.prepareVoluntaryYield now).2 now := by
  unfold Scheduler.prepareVoluntaryYield
  cases hcurrent : s.current with
  | none => exact charges_of_idle h hcurrent ⟨rfl, rfl, rfl, rfl, rfl⟩ hcurrent
  | some id =>
    obtain ⟨t, ht, hrunning⟩ := h.current_running id hcurrent
    have hcharges : Charges s
        ((s.setTask id { t with resumeKind := .voluntary }).schedule now).2 now :=
      .of_setTask (f := fun t => { t with resumeKind := .voluntary }) h hcurrent ht rfl rfl rfl
        fun hsound => charges_schedule hsound now
    simp only [ht]
    rw [if_neg (not_not.mpr hrunning)]
    generalize (s.setTask id { t with resumeKind := .voluntary }).schedule now = outcome at hcharges
    obtain ⟨answer, s₁⟩ := outcome
    rcases answer with e | ⟨⟩ | next
    · exact hcharges
    · exact hcharges
    · exact hcharges.congr rfl rfl rfl ⟨rfl, rfl, rfl, rfl, rfl⟩ rfl

/-- `sleep`, `block` and `exit`, once the clock is set. -/
theorem charges_stopThen (h : Sound s) {state : TaskState}
    (hallowed : TaskState.canTransition .running state = true) (now : ℕ)
    {edit : TaskControlBlock → TaskControlBlock} {queue : ℕ → Scheduler → Scheduler}
    (hedit : ∀ t, (edit t).taskId = t.taskId ∧ (edit t).meter = t.meter)
    (hqueue : ∀ id s, SameSlots s (queue id s) ∧ (queue id s).current = s.current) :
    Charges s (s.stopThen state now edit queue).2 now := by
  have h₀ := sound_setClock h now
  rcases stopRunning_cases h₀ hallowed now with
    ⟨hnone, hstop⟩ | ⟨id, t, t', s₁, hcurrent, ht, -, hstopped', hstop, hstopped, hwrote⟩
  · simp only [stopThen, stopCurrent, hstop]
    exact charges_of_idle h hnone ⟨rfl, rfl, rfl, rfl, rfl⟩ hnone
  · have hid : t'.taskId = t.taskId := by rw [hstopped', chargedTask_taskId]
    have hmeter : t'.meter = t.meter.charge now := by
      rw [← chargedTask_meter, hstopped']
      rfl
    obtain ⟨hslots, htask⟩ := hwrote.slots h₀.slots ht hid
    have ht' : s₁.task id = some t' := by rw [htask, Function.update_self]
    obtain ⟨slot, hindex, -⟩ := Option.bind_eq_some_iff.mp ht'
    simp only [stopThen, stopCurrent, hstop, ht']
    obtain ⟨hsame, hqueued⟩ := hqueue id (s₁.setTask id (edit t'))
    have hedited := hwrote.trans (wrote_setTask s₁ id (edit t'))
    have hvacated : Vacated { s with clock := now } (queue id (s₁.setTask id (edit t'))) now := by
      refine vacated_of_wrote h₀ hcurrent ht ((hedit t').1.trans hid) ((hedit t').2.trans hmeter) ?_ ?_
      · exact ⟨hsame.tasks_eq.trans hedited.tasks_eq, hsame.index_eq.trans hedited.index_eq,
          hsame.freeSlots_eq.trans hedited.freeSlots_eq,
          hsame.nextTaskId_eq.trans hedited.nextTaskId_eq, hsame.idle_eq.trans hedited.idle_eq⟩
      · rw [hqueued, setTask_eq hindex]
        exact hstopped
    exact (hvacated.switchToNext (some id)).congr rfl rfl rfl ⟨rfl, rfl, rfl, rfl, rfl⟩ rfl

/-- A meter that is charged, as far as it is read: the one of an idle task does not run. -/
theorem charge_of_isIdle {m : Meter} (h : m.isIdle = true) :
    ((m.charge now).isIdle, (m.charge now).execRuntime) = (m.isIdle, m.execRuntime) := by
  simp [Meter.charge, h]

theorem charges_charge (h : Sound s) (hcurrent : s.current = some id) (now : ℕ) :
    Charges s (s.charge id now).2 now := by
  obtain ⟨t, ht, hrunning⟩ := h.current_running id hcurrent
  obtain ⟨hwrote, hsame⟩ := wrote_charge now ht
  have hmeter := hwrote.meter h.slots ht (chargedTask_taskId now t)
  refine ⟨hwrote.sound h ht (chargedTask_taskId now t) ?_ fun id' hid' => ?_, hwrote.nextTaskId_eq,
    fun id' => ?_, fun id' m hid' hm _ => ?_⟩
  · exact congrArg Meter.isIdle (chargedTask_meter now t)
  · split
    · exact (chargedTask_state now t).trans hrunning
    · exact hsame ▸ hid'
  · have hbefore : s.meter id = some t.meter := by rw [meter, ht, Option.map_some]
    rw [hmeter, hcurrent, chargedMeters, chargedTask_meter, hbefore, Option.map_some]
  · rw [hsame, hcurrent] at hid'
    obtain rfl := Option.some.inj hid'
    rw [hmeter, Function.update_self, chargedTask_meter] at hm
    obtain rfl := Option.some.inj hm
    rfl

/-- `tick` charges the running task, unless it is the idle task. -/
theorem charges_tick (h : Sound s) (now : ℕ) : Charges s (s.tick now).2 now := by
  unfold Scheduler.tick
  dsimp only
  split
  next hfilter =>
    have hidle : ∀ id m, s.current = some id → s.meter id = some m → m.isIdle = true := by
      intro id m hid hm
      rw [hid] at hfilter
      obtain ⟨t, ht, rfl⟩ := Option.map_eq_some_iff.mp hm
      refine (h.idle_isIdle id ?_).2 t ht
      simpa using hfilter
    refine ⟨?_, rfl, fun id => ?_, fun id m hid hm hnot => ?_⟩
    · exact SameSlots.sound (s := s) ⟨rfl, rfl, rfl, rfl, rfl⟩ h (.inl rfl)
    · change (s.meter id).map _ = _
      cases hcurrent : s.current with
      | none => rfl
      | some current =>
        rw [chargedMeters]
        by_cases heq : id = current
        · subst heq
          rw [Function.update_self]
          cases hm : s.meter id with
          | none => rfl
          | some m => exact congrArg some (charge_of_isIdle (hidle id m hcurrent hm)).symm
        · rw [Function.update_of_ne heq]
    · exact absurd (hidle id m hid hm) (by simp [hnot])
  next current hfilter =>
    obtain ⟨hcurrent, -⟩ := Option.filter_eq_some_iff.mp hfilter
    exact (charges_charge (sound_setClock h now) hcurrent now).congr rfl rfl rfl
      ⟨rfl, rfl, rfl, rfl, rfl⟩ rfl

/-! ## Operations that are not told the time -/

/-- From `s` to `s'` no time was charged. -/
structure Keeps (s s' : Scheduler) : Prop where
  sound : Sound s'
  current_eq : s'.current = s.current
  next_eq : s'.nextTaskId = s.nextTaskId
  meter_eq : s'.meter = s.meter

theorem keeps_refl (h : Sound s) : Keeps s s :=
  ⟨h, rfl, rfl, rfl⟩

theorem Keeps.trans (h : Keeps s s') (h' : Keeps s' s'') : Keeps s s'' :=
  ⟨h'.sound, h'.current_eq.trans h.current_eq, h'.next_eq.trans h.next_eq,
    h'.meter_eq.trans h.meter_eq⟩

/-- Rewriting a task that does not run, or one that goes on running, without its meter. -/
theorem Wrote.keeps (h : Wrote s s' id t) (hs : Sound s) (ht₀ : s.task id = some t₀)
    (hid : t.taskId = t₀.taskId) (hmeter : t.meter = t₀.meter) (hcurrent : s'.current = s.current)
    (hstate : t₀.state = .running → t.state = .running) : Keeps s s' where
  sound := by
    refine h.sound hs ht₀ hid (congrArg Meter.isIdle hmeter) fun id' hid' => ?_
    rw [hcurrent] at hid'
    split
    · rename_i heq
      obtain ⟨t₁, ht₁, hrunning⟩ := hs.current_running id' hid'
      rw [heq, ht₀] at ht₁
      obtain rfl := Option.some.inj ht₁
      exact hstate hrunning
    · exact hid'
  current_eq := hcurrent
  next_eq := h.nextTaskId_eq
  meter_eq := h.meter_same hs.slots ht₀ hid hmeter

theorem SameSlots.keeps (h : SameSlots s s') (hs : Sound s) (hcurrent : s'.current = s.current) :
    Keeps s s' :=
  ⟨h.sound hs (.inl hcurrent), hcurrent, h.nextTaskId_eq, h.meter⟩

theorem keeps_join (h : Sound s) (ht : s.task id = some t) : Keeps s (s.join id) := by
  obtain ⟨t', hmeter, hid, hstate, hwrote, hcurrent⟩ := wrote_join ht
  exact hwrote.keeps h ht hid hmeter hcurrent fun hrunning => hstate.trans hrunning

/-- Waking a blocked task. -/
theorem keeps_makeReady (h : Sound s) (ht : s.task id = some t) (hblocked : t.state = .blocked) :
    Keeps s (s.makeReady id) := by
  have hready : t.transition .ready = .ok { t with state := .ready } := by
    rw [TaskControlBlock.transition, hblocked]
    rfl
  obtain ⟨slot, hindex, -⟩ := Option.bind_eq_some_iff.mp ht
  have hwrote := wrote_setTask s id { t with state := .ready, blockReason := none, waitLink := none }
  have hset := hwrote.keeps h ht rfl rfl (by rw [setTask_eq hindex]) fun hrunning => by
    rw [hblocked] at hrunning
    contradiction
  obtain ⟨-, htask⟩ := hwrote.slots h.slots ht rfl
  have hjoin := hset.trans (keeps_join hset.sound (by rw [htask, Function.update_self]))
  simp only [makeReady, ht, hready]
  exact hjoin.trans (SameSlots.keeps ⟨rfl, rfl, rfl, rfl, rfl⟩ hjoin.sound rfl)

theorem Sound.keeps_roused (h : Sound s) (hroused : Roused True s s') : Keeps s s' := by
  induction hroused with
  | refl => exact keeps_refl h
  | pop _ _ ih => exact ih.trans (SameSlots.keeps ⟨rfl, rfl, rfl, rfl, rfl⟩ ih.sound rfl)
  | makeReady _ ht hblocked ih => exact ih.trans (keeps_makeReady ih.sound ht hblocked)

theorem keeps_setNice (h : Sound s) (id : ℕ) (nice : ℤ) : Keeps s (s.setNice id nice).2 := by
  unfold Scheduler.setNice
  cases ht : s.task id with
  | none => exact keeps_refl h
  | some t =>
    have hwrote := wrote_setTask s id { t with schedulerEntity := t.schedulerEntity.renice nice }
    obtain ⟨slot, hindex, -⟩ := Option.bind_eq_some_iff.mp ht
    have hset := hwrote.keeps h ht rfl rfl (by rw [setTask_eq hindex])
      fun hrunning => hrunning
    dsimp only
    split_ifs
    · exact keeps_refl h
    · rw [refreshAverage_eq]
      exact hset.trans (SameSlots.keeps ⟨rfl, rfl, rfl, rfl, rfl⟩ hset.sound rfl)
    · exact hset

/-! ## Creating and reaping tasks -/

theorem lt_of_task (h : s.SlotsOk) (ht : s.task id = some t) : id < s.nextTaskId := by
  obtain ⟨slot, hindex, -, -⟩ := h.slot_of_task ht
  exact h.id_lt id slot hindex

/-- From `s` to `s'` a task was created that has not run. -/
structure Adds (s s' : Scheduler) (isIdle : Bool) : Prop where
  sound : Sound s'
  current_eq : s'.current = s.current
  next_eq : s'.nextTaskId = s.nextTaskId + 1
  meter_eq : s'.meter = Function.update s.meter s.nextTaskId (some ⟨isIdle, 0, 0⟩)

/-- A new task in its slot, before it joins the runnable set. -/
theorem adds_insertTask (h : Sound s) (isIdle : Bool) :
    Adds s (({ s with nextTaskId := s.nextTaskId + 1 }).insertTask
      { taskId := s.nextTaskId, state := .ready, isIdle }) isIdle ∧
    (({ s with nextTaskId := s.nextTaskId + 1 }).insertTask
      { taskId := s.nextTaskId, state := .ready, isIdle }).task s.nextTaskId =
        some { taskId := s.nextTaskId, state := .ready, isIdle } := by
  have hinserted := h.slots.inserted (t := { taskId := s.nextTaskId, state := .ready, isIdle }) rfl
  refine ⟨⟨⟨hinserted.slots, fun id hid => ?_, fun id hid => ?_⟩, hinserted.current_eq,
    hinserted.next_eq, ?_⟩, hinserted.task_self⟩
  · obtain ⟨t', ht', hrunning⟩ := h.current_running id (hinserted.current_eq ▸ hid)
    refine ⟨t', ?_, hrunning⟩
    rw [hinserted.task_eq, Function.update_of_ne (lt_of_task h.slots ht').ne, ht']
  · obtain ⟨hlt, hmarked⟩ := h.idle_isIdle id (hinserted.idle_eq ▸ hid)
    refine ⟨(Nat.lt_succ_of_lt hlt).trans_eq hinserted.next_eq.symm, fun t' ht' => hmarked t' ?_⟩
    rwa [hinserted.task_eq, Function.update_of_ne hlt.ne] at ht'
  · funext id
    rw [meter, hinserted.task_eq]
    by_cases heq : id = s.nextTaskId
    · rw [heq, Function.update_self, Function.update_self]
      rfl
    · rw [Function.update_of_ne heq, Function.update_of_ne heq, meter]

theorem Adds.keeps {isIdle : Bool} (h : Adds s s' isIdle) (hkeeps : Keeps s' s'') :
    Adds s s'' isIdle :=
  ⟨hkeeps.sound, hkeeps.current_eq.trans h.current_eq, hkeeps.next_eq.trans h.next_eq,
    hkeeps.meter_eq.trans h.meter_eq⟩

theorem adds_spawn (h : Sound s) : Adds s s.spawn.2 false := by
  obtain ⟨hadds, htask⟩ := adds_insertTask h false
  exact hadds.keeps (keeps_join hadds.sound htask)

theorem adds_spawnKernelTask (h : Sound s) (isIdle : Bool) :
    Adds s (s.spawnKernelTask isIdle).2 isIdle := by
  cases isIdle with
  | false => exact adds_spawn h
  | true =>
    obtain ⟨hadds, htask⟩ := adds_insertTask h true
    refine ⟨⟨hadds.sound.slots, hadds.sound.current_running, fun id hid => ?_⟩, hadds.current_eq,
      hadds.next_eq, hadds.meter_eq⟩
    -- the new task is the idle task from now on
    obtain rfl := Option.some.inj hid
    refine ⟨hadds.next_eq ▸ Nat.lt_succ_self _, fun t ht => ?_⟩
    obtain rfl := Option.some.inj (htask.symm.trans ht)
    rfl

/-- `reap_one` hands out an exited task that does not run, or changes no task. -/
theorem reapOne_cases (h : Sound s) :
    (Keeps s s.reapOne.2 ∧ s.reapOne.2.task = s.task ∧ ∀ t, s.reapOne.1 ≠ .ok (some t)) ∨
      ∃ t, s.reapOne.1 = .ok (some t) ∧ t.taskId ∈ s.exitQueue ∧ s.task t.taskId = some t ∧
        s.current ≠ some t.taskId ∧ Sound s.reapOne.2 ∧ s.reapOne.2.current = s.current ∧
        s.reapOne.2.nextTaskId = s.nextTaskId ∧
        s.reapOne.2.task = Function.update s.task t.taskId none := by
  unfold Scheduler.reapOne
  cases hqueue : s.exitQueue with
  | nil => exact .inl ⟨keeps_refl h, rfl, fun t => by simp⟩
  | cons id rest =>
    dsimp only
    split
    · exact .inl ⟨keeps_refl h, rfl, fun t => by simp⟩
    rename_i hcurrent
    cases hindex : s.index id with
    | none => exact .inl ⟨SameSlots.keeps ⟨rfl, rfl, rfl, rfl, rfl⟩ h rfl, rfl, fun t => by simp⟩
    | some slot =>
      obtain ⟨t, hslot, hid⟩ := h.slots.index_some id slot hindex
      subst hid
      dsimp only
      rw [hslot]
      refine .inr ⟨t, rfl, List.mem_cons_self, by rw [task, hindex, Option.bind_some, hslot]; rfl, hcurrent, ?_⟩
      have htask := h.slots.task_removed hindex
      refine ⟨⟨h.slots.remove hindex hslot, fun id hid => ?_, fun id hid => ?_⟩, rfl, rfl, htask⟩
      · obtain ⟨t', ht', hrunning⟩ := h.current_running id hid
        have hne : id ≠ t.taskId := fun heq => hcurrent (heq ▸ hid)
        exact ⟨t', (congrFun htask id).trans (by rw [Function.update_of_ne hne, ht']), hrunning⟩
      · obtain ⟨hlt, hmarked⟩ := h.idle_isIdle id hid
        refine ⟨hlt, fun t' ht' => hmarked t' ?_⟩
        have hupdate := (congrFun htask id).symm.trans ht'
        by_cases heq : id = t.taskId
        · rw [heq, Function.update_self] at hupdate
          contradiction
        · rwa [Function.update_of_ne heq] at hupdate

end Scheduler

end SaeOS.Task
