import SaeOS.Task.SchedulerInvariant

/-!
# The operations that move a task

Charging, dispatching, preempting, yielding, blocking, sleeping, exiting and waking rewrite one live
task and move it between the queues. Each is an `Edit` of the scheduler, or a few of them one after
the other, and keeps the invariant.
-/

namespace SaeOS.Task

open scoped List

namespace Scheduler

variable {s s' : Scheduler} {id now : ℕ} {t t₀ : TaskControlBlock}

/-! ## Charging -/

theorem refreshAverage_eq (s : Scheduler) : s.refreshAverage =
    { s with average := if s.sumWeight > 0 then s.sumWeightedRuntime.tdiv s.sumWeight
                        else s.average } := by
  unfold refreshAverage
  split_ifs <;> rfl

/-- An edit that leaves the task in its queue. -/
theorem Inv.editInPlace (h : Inv s) (ht₀ : s.task id = some t₀)
    (htasks : s'.tasks = (s.setTask id t).tasks)
    (hframe : s'.index = s.index ∧ s'.freeSlots = s.freeSlots ∧ s'.nextTaskId = s.nextTaskId ∧
      s'.idle = s.idle)
    (hqueues : s'.current = s.current ∧ s'.runQueue = s.runQueue ∧ s'.exitQueue = s.exitQueue)
    (hid : t.taskId = t₀.taskId) (hstate : t.state = t₀.state) (hidle : t.isIdle = t₀.isIdle)
    (hweight : s'.sumWeight =
      s.sumWeight - contribution weightOf (some t₀) + contribution weightOf (some t))
    (hruntime : s'.sumWeightedRuntime =
      s.sumWeightedRuntime - contribution weightedRuntimeOf (some t₀) +
        contribution weightedRuntimeOf (some t)) : Edit s s' id t₀ t := by
  obtain ⟨hcurrent, hrun, hexit⟩ := hqueues
  have hp := h.placed.placedAs id t₀ ht₀
  refine
    { tasks_eq := htasks
      frame := hframe
      taskId_eq := hid
      current_iff := fun id' _ => by rw [hcurrent]
      runQueue_iff := fun id' _ => by rw [hrun]
      exitQueue_iff := fun id' _ => by rw [hexit]
      runQueue_nodup := hrun ▸ h.placed.runQueue_nodup
      exitQueue_nodup := hexit ▸ h.placed.exitQueue_nodup
      placedAs := ?_
      sumWeight_eq := hweight
      sumWeightedRuntime_eq := hruntime }
  rw [hcurrent, hrun, hexit, hframe.2.2.2]
  exact ⟨hstate ▸ hp.current_iff, hstate ▸ hidle ▸ hp.runQueue_iff, hstate ▸ hp.exitQueue_iff,
    hidle ▸ hp.idle_iff, hstate ▸ hp.not_new, hstate ▸ hidle ▸ hp.idle_runnable⟩

theorem account_weight (e : EevdfEntity) (ran : ℕ) : (e.account ran).2.weight = e.weight := by
  simp only [EevdfEntity.account]
  split_ifs <;> rfl

/-- The running task is live and running. -/
theorem Inv.current_task (h : Inv s) (hcurrent : s.current = some id) :
    ∃ t, s.task id = some t ∧ t.state = .running := by
  obtain ⟨t, ht⟩ := h.placed.live id (Or.inl hcurrent)
  exact ⟨t, ht, (h.placed.placedAs id t ht).current_iff.mp hcurrent⟩

/-- Charging the running task rewrites its entity and keeps everything else. -/
theorem Inv.charge (h : Inv s) (ht₀ : s.task id = some t₀) (hrunning : t₀.state = .running)
    (now : ℕ) :
    ∃ t, Edit s (s.charge id now).2 id t₀ t ∧ t.state = .running ∧ t.isIdle = t₀.isIdle ∧
      (s.charge id now).2.current = s.current ∧ (s.charge id now).2.runQueue = s.runQueue ∧
      (s.charge id now).2.exitQueue = s.exitQueue ∧ (s.charge id now).2.idle = s.idle := by
  obtain ⟨slot, hindex, -, -⟩ := h.slots.slot_of_task ht₀
  simp only [Scheduler.charge, ht₀]
  split_ifs with hidle
  · refine ⟨{ t₀ with dispatchedAt := now }, ?_, hrunning, rfl, ?_⟩
    · refine h.editInPlace ht₀ rfl ?_ ?_ rfl rfl rfl ?_ ?_
      · simp [setTask_eq hindex]
      · simp [setTask_eq hindex]
      · simp [setTask_eq hindex, contribution, hidle]
      · simp [setTask_eq hindex, contribution, hidle]
    · simp [setTask_eq hindex]
  · refine ⟨{ t₀ with
      dispatchedAt := now
      schedulerEntity := (t₀.schedulerEntity.account (now - t₀.dispatchedAt)).2 }, ?_, hrunning,
      rfl, ?_⟩
    · refine h.editInPlace ht₀ ?_ ?_ ?_ rfl rfl rfl ?_ ?_
      · simp [refreshAverage_eq]
      · simp [refreshAverage_eq, setTask_eq hindex]
      · simp [refreshAverage_eq, setTask_eq hindex]
      · simp [refreshAverage_eq, setTask_eq hindex, contribution, hidle, hrunning,
          TaskState.isRunnable, weightOf, account_weight]
      · simp [refreshAverage_eq, setTask_eq hindex, contribution, hidle, hrunning,
          TaskState.isRunnable, weightedRuntimeOf, account_weight]
        ring
    · simp [refreshAverage_eq, setTask_eq hindex]

/-! ## Picking the next task -/

/-- A candidate of the scan lies before position `n`. -/
def CandidateBefore (n : ℕ) (candidate : Option (ℕ × ℤ × ℕ)) : Prop :=
  ∀ i key, candidate = some (i, key) → i < n

theorem CandidateBefore.mono {m n : ℕ} {c : Option (ℕ × ℤ × ℕ)} (h : CandidateBefore m c)
    (hle : m ≤ n) : CandidateBefore n c :=
  fun i key hc => lt_of_lt_of_le (h i key hc) hle

theorem CandidateBefore.better {n : ℕ} {c : Option (ℕ × ℤ × ℕ)} (h : CandidateBefore n c)
    (key : ℤ × ℕ) : CandidateBefore (n + 1) (better c n key) := by
  intro i key' hc
  unfold Scheduler.better at hc
  split at hc
  next =>
    cases hc
    omega
  next j best =>
    split_ifs at hc
    · cases hc
      omega
    · cases hc
      exact lt_of_lt_of_le (h i key' rfl) (Nat.le_succ n)

theorem isSome_better (c : Option (ℕ × ℤ × ℕ)) (i : ℕ) (key : ℤ × ℕ) :
    (better c i key).isSome = true := by
  unfold better
  split
  · rfl
  · split_ifs <;> rfl

/-- The scan finds positions of the queue, and always a fallback when it meets a live task. -/
theorem scanQueue_spec (s : Scheduler) {l : List ℕ} {i : ℕ} {best fallback : Option (ℕ × ℤ × ℕ)}
    (hbest : CandidateBefore i best) (hfallback : CandidateBefore i fallback)
    (hlive : ∀ id ∈ l, ∃ t, s.task id = some t) :
    CandidateBefore (i + l.length) (s.scanQueue l i best fallback).1 ∧
      CandidateBefore (i + l.length) (s.scanQueue l i best fallback).2 ∧
      (l ≠ [] ∨ fallback.isSome = true → (s.scanQueue l i best fallback).2.isSome = true) := by
  induction l generalizing i best fallback with
  | nil =>
    refine ⟨hbest, hfallback, fun h => ?_⟩
    simpa [scanQueue] using h
  | cons id l ih =>
    obtain ⟨t, ht⟩ := hlive id List.mem_cons_self
    simp only [scanQueue, ht]
    have hlen : i + (id :: l).length = i + 1 + l.length := by
      rw [List.length_cons]
      omega
    rw [hlen]
    -- later positions are compared against candidates that now include this one
    refine And.imp_right (And.imp_right fun h _ => h (Or.inr (isSome_better ..))) (ih ?_ ?_ ?_)
    · split_ifs
      · exact hbest.better _
      · exact hbest.mono (Nat.le_succ i)
    · exact hfallback.better _
    · exact fun id' hid' => hlive id' (List.mem_cons_of_mem _ hid')

/-- `pick_next` takes a task off the run queue, or the idle task when the queue is empty. -/
theorem Inv.pickNext (h : Inv s) :
    (s.runQueue = [] ∧ s.pickNext = (s.idle, s)) ∨
      ∃ id q, s.pickNext = (some id, { s with runQueue := q }) ∧ id :: q ~ s.runQueue := by
  unfold Scheduler.pickNext
  by_cases hempty : s.runQueue = []
  · exact Or.inl ⟨hempty, by simp [hempty]⟩
  · right
    rw [if_neg (by simpa using hempty)]
    have hnone : CandidateBefore 0 none := fun i key hc => by cases hc
    obtain ⟨hbest, hfallback, hsome⟩ := s.scanQueue_spec (l := s.runQueue) hnone hnone
      fun id hid => h.placed.live id (Or.inr (Or.inr (Or.inl hid)))
    rw [Nat.zero_add] at hbest hfallback
    obtain ⟨f, hf⟩ := Option.isSome_iff_exists.mp (hsome (Or.inl hempty))
    have hpick : ∃ i key, ((s.scanQueue s.runQueue 0 none none).1.or
        (s.scanQueue s.runQueue 0 none none).2) = some (i, key) ∧ i < s.runQueue.length := by
      cases hb : (s.scanQueue s.runQueue 0 none none).1 with
      | none => exact ⟨f.1, f.2, by rw [hf]; rfl, hfallback f.1 f.2 hf⟩
      | some c => exact ⟨c.1, c.2, rfl, hbest c.1 c.2 hb⟩
    obtain ⟨i, key, hor, hlt⟩ := hpick
    have hget : s.runQueue[i]? = some (s.runQueue[i]) := List.getElem?_eq_getElem hlt
    refine ⟨s.runQueue[i], Vec.swapRemove s.runQueue i, ?_, Vec.perm_swapRemove hget⟩
    simp only [hor, hget]

/-! ## Dispatching -/

/-- Making a ready task current. -/
theorem Inv.dispatch (h : Inv s) {q : List ℕ} (now : ℕ) (hnone : s.current = none)
    (ht₀ : s.task id = some t₀) (hready : t₀.state = .ready)
    (hqueue : ∀ id', id' ≠ id → (id' ∈ q ↔ id' ∈ s.runQueue)) (hout : id ∉ q) (hnodup : q.Nodup) :
    Inv { (s.setTask id { t₀ with state := .running, dispatchedAt := now, sliceStart := now }) with
      runQueue := q, current := some id } := by
  obtain ⟨slot, hindex, -, -⟩ := h.slots.slot_of_task ht₀
  have hp := h.placed.placedAs id t₀ ht₀
  refine (h.edit ht₀ (t := { t₀ with state := .running, dispatchedAt := now, sliceStart := now })
    ?_).1
  have hexit : id ∉ s.exitQueue := fun hmem => by
    rw [hp.exitQueue_iff.mp hmem] at hready
    cases hready
  rw [setTask_eq hindex]
  refine
    { tasks_eq := by rw [setTask_eq hindex]
      frame := ⟨rfl, rfl, rfl, rfl⟩
      taskId_eq := rfl
      current_iff := fun id' hne => by simp [hnone, Ne.symm hne]
      runQueue_iff := hqueue
      exitQueue_iff := fun id' _ => Iff.rfl
      runQueue_nodup := hnodup
      exitQueue_nodup := h.placed.exitQueue_nodup
      placedAs :=
        { current_iff := by simp
          runQueue_iff := by simp [hout]
          exitQueue_iff := by simp [hexit]
          idle_iff := hp.idle_iff
          not_new := by simp
          idle_runnable := fun _ => rfl }
      sumWeight_eq := by
        simp [contribution, hready, TaskState.isRunnable, weightOf]
      sumWeightedRuntime_eq := by
        simp [contribution, hready, TaskState.isRunnable, weightedRuntimeOf] }

/-- `switch_to_next` once a task is picked. -/
theorem switchToNext_of_pick {s₁ : Scheduler} (previous : Option ℕ) (now : ℕ)
    (hpick : ({ s with wakeupPreempt := false }).pickNext = (some id, s₁))
    (ht₀ : s₁.task id = some t₀) (hready : t₀.state = .ready) :
    ∃ stats, (s.switchToNext previous now).2 =
      { (s₁.setTask id { t₀ with state := .running, dispatchedAt := now, sliceStart := now }) with
        current := some id, stats } := by
  simp only [Scheduler.switchToNext, hpick, ht₀, TaskControlBlock.transition, hready,
    TaskState.canTransition, ↓reduceIte]
  split_ifs <;> exact ⟨_, rfl⟩

/-- When nothing is running the idle task is ready. -/
theorem Inv.idle_ready (h : Inv s) (hnone : s.current = none) (hidle : s.idle = some id)
    (ht₀ : s.task id = some t₀) : t₀.state = .ready := by
  have hp := h.placed.placedAs id t₀ ht₀
  have hrunnable := hp.idle_runnable (hp.idle_iff.mp hidle)
  have hnot : t₀.state ≠ .running := fun hrun => by
    rw [hp.current_iff.mpr hrun] at hnone
    cases hnone
  cases hstate : t₀.state <;> simp_all [TaskState.isRunnable]

/-- `switch_to_next` keeps the invariant when nothing is running. -/
theorem Inv.switchToNext (h : Inv s) (hnone : s.current = none) (previous : Option ℕ) (now : ℕ) :
    Inv (s.switchToNext previous now).2 := by
  have h₁ : Inv { s with wakeupPreempt := false } :=
    ⟨h.slots, h.placed, h.sumWeight, h.sumWeightedRuntime⟩
  rcases h₁.pickNext with ⟨hempty, hpick⟩ | ⟨id, q, hpick, hperm⟩
  · cases hidle : s.idle with
    | none =>
      have hpick' : ({ s with wakeupPreempt := false }).pickNext =
          (none, { s with wakeupPreempt := false }) := hpick.trans (Prod.ext hidle rfl)
      have hcurrent : Inv { s with wakeupPreempt := false, current := none } :=
        ⟨h.slots, hnone ▸ h.placed, h.sumWeight, h.sumWeightedRuntime⟩
      simp only [Scheduler.switchToNext, hpick']
      split_ifs
      · exact ⟨hcurrent.slots, hcurrent.placed, hcurrent.sumWeight, hcurrent.sumWeightedRuntime⟩
      · exact hcurrent
    | some id =>
      have hpick' : ({ s with wakeupPreempt := false }).pickNext =
          (some id, { s with wakeupPreempt := false }) := hpick.trans (Prod.ext hidle rfl)
      obtain ⟨t₀, ht₀⟩ := h.placed.live id (Or.inr (Or.inl hidle))
      have hready := h.idle_ready hnone hidle ht₀
      obtain ⟨stats, heq⟩ := switchToNext_of_pick previous now hpick' ht₀ hready
      have hdispatch := h₁.dispatch now hnone ht₀ hready (fun _ _ => Iff.rfl)
        (fun hmem => List.not_mem_nil (hempty ▸ hmem)) h₁.placed.runQueue_nodup
      obtain ⟨slot, hindex, -, -⟩ := h₁.slots.slot_of_task ht₀
      rw [heq]
      rw [setTask_eq hindex] at hdispatch ⊢
      exact ⟨hdispatch.slots, hdispatch.placed, hdispatch.sumWeight, hdispatch.sumWeightedRuntime⟩
  · have hmem : id ∈ s.runQueue := hperm.mem_iff.mp List.mem_cons_self
    have hnodup := hperm.nodup_iff.mpr h₁.placed.runQueue_nodup
    obtain ⟨t₀, ht₀⟩ := h.placed.live id (Or.inr (Or.inr (Or.inl hmem)))
    have hready := ((h.placed.placedAs id t₀ ht₀).runQueue_iff.mp hmem).1
    obtain ⟨stats, heq⟩ := switchToNext_of_pick previous now hpick ht₀ hready
    have hothers : ∀ id', id' ≠ id → (id' ∈ q ↔ id' ∈ s.runQueue) := fun id' hne => by
      rw [← hperm.mem_iff, List.mem_cons]
      simp [hne]
    have hdispatch := h₁.dispatch now hnone ht₀ hready hothers
      (List.nodup_cons.mp hnodup).1 (List.nodup_cons.mp hnodup).2
    obtain ⟨slot, hindex, -, -⟩ := h₁.slots.slot_of_task ht₀
    rw [heq]
    rw [setTask_eq hindex] at hdispatch
    rw [setTask_eq (s := { s with wakeupPreempt := false, runQueue := q }) hindex]
    exact ⟨hdispatch.slots, hdispatch.placed, hdispatch.sumWeight, hdispatch.sumWeightedRuntime⟩

/-! ## Taking the CPU away -/

/-- Appending a new id to a queue keeps it free of duplicates. -/
theorem nodup_snoc {l : List ℕ} (h : l.Nodup) (hid : id ∉ l) : (l ++ [id]).Nodup := by
  rw [← List.concat_eq_append]
  exact h.concat hid

/-- The running task is rewritten and leaves the CPU: a ready one joins the run queue, an exited one
the exit queue. -/
theorem Inv.suspend (h : Inv s) (hcurrent : s.current = some id) (ht₀ : s.task id = some t₀)
    (htask : t.taskId = t₀.taskId ∧ t.isIdle = t₀.isIdle ∧
      t.schedulerEntity.weight = t₀.schedulerEntity.weight ∧
      t.schedulerEntity.virtualRuntime = t₀.schedulerEntity.virtualRuntime)
    (hstate : t.state = .ready ∨ ((t.state = .blocked ∨ t.state = .exited) ∧ t.isIdle = false))
    (htasks : s'.tasks = (s.setTask id t).tasks)
    (hframe : s'.index = s.index ∧ s'.freeSlots = s.freeSlots ∧ s'.nextTaskId = s.nextTaskId ∧
      s'.idle = s.idle)
    (hnone : s'.current = none)
    (hrun : s'.runQueue =
      if t.state = .ready ∧ t.isIdle = false then s.runQueue ++ [id] else s.runQueue)
    (hexit : s'.exitQueue = if t.state = .exited then s.exitQueue ++ [id] else s.exitQueue)
    (hweight : s'.sumWeight = s.sumWeight - if t.state = .ready then 0 else weightOf t)
    (hruntime : s'.sumWeightedRuntime =
      s.sumWeightedRuntime - if t.state = .ready then 0 else weightedRuntimeOf t) : Inv s' := by
  obtain ⟨hid, hidle, hw, hr⟩ := htask
  have hp := h.placed.placedAs id t₀ ht₀
  have hrunning := hp.current_iff.mp hcurrent
  have hnotRun : id ∉ s.runQueue := fun hmem => by
    rw [(hp.runQueue_iff.mp hmem).1] at hrunning
    cases hrunning
  have hnotExit : id ∉ s.exitQueue := fun hmem => by
    rw [hp.exitQueue_iff.mp hmem] at hrunning
    cases hrunning
  refine (h.edit ht₀ (t := t) ?_).1
  refine
    { tasks_eq := htasks
      frame := hframe
      taskId_eq := hid
      current_iff := fun id' hne => ?_
      runQueue_iff := fun id' hne => ?_
      exitQueue_iff := fun id' hne => ?_
      runQueue_nodup := ?_
      exitQueue_nodup := ?_
      placedAs := ?_
      sumWeight_eq := ?_
      sumWeightedRuntime_eq := ?_ }
  · simp [hnone, hcurrent, Ne.symm hne]
  · rw [hrun]
    split_ifs <;> simp [hne]
  · rw [hexit]
    split_ifs <;> simp [hne]
  · rw [hrun]
    split_ifs
    · exact nodup_snoc h.placed.runQueue_nodup hnotRun
    · exact h.placed.runQueue_nodup
  · rw [hexit]
    split_ifs
    · exact nodup_snoc h.placed.exitQueue_nodup hnotExit
    · exact h.placed.exitQueue_nodup
  · rw [hframe.2.2.2]
    refine
      { current_iff := by rcases hstate with hs | ⟨hs | hs, -⟩ <;> simp [hnone, hs]
        runQueue_iff := by
          rw [hrun]
          split_ifs with hc <;> simp [hc, hnotRun]
        exitQueue_iff := by
          rw [hexit]
          split_ifs with hc <;> simp [hc, hnotExit]
        idle_iff := hidle ▸ hp.idle_iff
        not_new := by rcases hstate with hs | ⟨hs | hs, -⟩ <;> simp [hs]
        idle_runnable := fun hi => ?_ }
    rcases hstate with hs | ⟨-, hi'⟩
    · simp [hs, TaskState.isRunnable]
    · rw [hi] at hi'
      cases hi'
  · rw [hweight]
    rcases hstate with hs | ⟨hs | hs, hi⟩
    · simp [contribution, hs, hrunning, TaskState.isRunnable, weightOf, hw, hidle]
    · simp [contribution, hs, hrunning, TaskState.isRunnable, weightOf, hw, ← hidle, hi]
    · simp [contribution, hs, hrunning, TaskState.isRunnable, weightOf, hw, ← hidle, hi]
  · rw [hruntime]
    rcases hstate with hs | ⟨hs | hs, hi⟩
    · simp [contribution, hs, hrunning, TaskState.isRunnable, weightedRuntimeOf, hw, hr, hidle]
    · simp [contribution, hs, hrunning, TaskState.isRunnable, weightedRuntimeOf, hw, hr,
        ← hidle, hi]
    · simp [contribution, hs, hrunning, TaskState.isRunnable, weightedRuntimeOf, hw, hr,
        ← hidle, hi]

/-- The first half of `schedule` succeeds and leaves a scheduler without a running task. -/
theorem Inv.requeueCurrent (h : Inv s) (now : ℕ) :
    ∃ s₁, s.requeueCurrent now = (.ok (), s₁) ∧ Inv { s₁ with current := none } := by
  cases hcurrent : s.current with
  | none =>
    refine ⟨s, by simp [Scheduler.requeueCurrent, hcurrent], ?_⟩
    exact ⟨h.slots, hcurrent ▸ h.placed, h.sumWeight, h.sumWeightedRuntime⟩
  | some id =>
    obtain ⟨t₀, ht₀, hrunning⟩ := h.current_task hcurrent
    obtain ⟨t₁, hedit, hrunning₁, -, hcurrent₁, -, -, -⟩ := h.charge ht₀ hrunning now
    obtain ⟨h₁, htask₁⟩ := h.edit ht₀ hedit
    have ht₁ : (s.charge id now).2.task id = some t₁ := by rw [htask₁, Function.update_self]
    obtain ⟨slot, hindex, -, -⟩ := h₁.slots.slot_of_task ht₁
    rw [hcurrent] at hcurrent₁
    simp only [Scheduler.requeueCurrent, hcurrent, ht₀, hrunning, ↓reduceIte, ht₁,
      TaskControlBlock.transition, hrunning₁, TaskState.canTransition]
    split_ifs with hidle
    · refine ⟨_, rfl, h₁.suspend (t := { t₁ with state := .ready }) hcurrent₁ ht₁
        ⟨rfl, rfl, rfl, rfl⟩ (Or.inl rfl) rfl ?_ rfl ?_ ?_ ?_ ?_⟩ <;>
        simp [setTask_eq hindex, hidle]
    · refine ⟨_, rfl, h₁.suspend (t := { t₁ with
          state := .ready, schedulerEntity.enqueueTime := (s.charge id now).2.clock }) hcurrent₁ ht₁
        ⟨rfl, rfl, rfl, rfl⟩ (Or.inl rfl) rfl ?_ rfl ?_ ?_ ?_ ?_⟩ <;>
        simp [setTask_eq hindex, hidle]

theorem Inv.setClock (h : Inv s) (now : ℕ) : Inv { s with clock := now } :=
  ⟨h.slots, h.placed, h.sumWeight, h.sumWeightedRuntime⟩

/-- `schedule` keeps the invariant. -/
theorem Inv.schedule (h : Inv s) (now : ℕ) : Inv (s.schedule now).2 := by
  obtain ⟨s₁, hrequeue, h₁⟩ := (h.setClock now).requeueCurrent now
  simp only [Scheduler.schedule, hrequeue]
  exact h₁.switchToNext rfl _ now

/-- Rewriting fields of a live task that no queue or sum depends on. -/
theorem Inv.setTask (h : Inv s) (ht₀ : s.task id = some t₀)
    (htask : t.taskId = t₀.taskId ∧ t.state = t₀.state ∧ t.isIdle = t₀.isIdle ∧
      t.schedulerEntity = t₀.schedulerEntity) : Inv (s.setTask id t) := by
  obtain ⟨hid, hstate, hidle, hentity⟩ := htask
  obtain ⟨slot, hindex, -, -⟩ := h.slots.slot_of_task ht₀
  refine (h.edit ht₀ (h.editInPlace ht₀ rfl ?_ ?_ hid hstate hidle ?_ ?_)).1
  · simp [setTask_eq hindex]
  · simp [setTask_eq hindex]
  · simp [setTask_eq hindex, contribution, hstate, hidle, weightOf, hentity]
  · simp [setTask_eq hindex, contribution, hstate, hidle, weightedRuntimeOf, hentity]

/-- `preempt` once the interrupt frame is saved in the running task, if there is one. -/
def savedFrame (s : Scheduler) (stackPointer : ℕ) : Scheduler :=
  match s.current with
  | none => s
  | some current =>
    match s.task current with
    | none => s
    | some t =>
      s.setTask current { t with interruptStackPointer := stackPointer, resumeKind := .interrupt }

theorem Inv.savedFrame (h : Inv s) (stackPointer : ℕ) : Inv (s.savedFrame stackPointer) := by
  unfold Scheduler.savedFrame
  split
  · exact h
  · split
    · exact h
    · next ht => exact h.setTask ht ⟨rfl, rfl, rfl, rfl⟩

/-- `preempt` is `schedule` after the frame is saved, apart from its counters. -/
theorem preempt_schedule {stackPointer next : ℕ}
    (hrun : s.preempt stackPointer now = some (next, s')) :
    ∃ stats, s'.current.or s'.idle = some next ∧
      s' = { ((s.savedFrame stackPointer).schedule now).2 with stats } := by
  obtain ⟨id, hid, hnext⟩ :=
    Option.map_eq_some_iff.mp (show (_ : Option ℕ).map _ = some (next, s') from hrun)
  split at hnext
  · obtain ⟨rfl, rfl⟩ := Prod.mk.inj hnext
    exact ⟨_, hid, rfl⟩
  · obtain ⟨rfl, rfl⟩ := Prod.mk.inj hnext
    exact ⟨_, hid, rfl⟩

/-- `preempt` keeps the invariant. -/
theorem Inv.preempt (h : Inv s) {stackPointer next : ℕ}
    (hrun : s.preempt stackPointer now = some (next, s')) : Inv s' := by
  obtain ⟨stats, -, rfl⟩ := preempt_schedule hrun
  have hschedule := (h.savedFrame stackPointer).schedule now
  exact ⟨hschedule.slots, hschedule.placed, hschedule.sumWeight, hschedule.sumWeightedRuntime⟩

/-- `prepare_voluntary_yield` changes nothing, or it marks the running task, dispatches and
counts. -/
theorem prepareVoluntaryYield_cases (s : Scheduler) (now : ℕ) :
    (s.prepareVoluntaryYield now).2 = s ∨ ∃ current t stats, s.current = some current ∧
      s.task current = some t ∧ (s.prepareVoluntaryYield now).2 =
        { ((s.setTask current { t with resumeKind := .voluntary }).schedule now).2 with stats } :=
          by
  unfold Scheduler.prepareVoluntaryYield
  split
  next => exact .inl rfl
  next current hcurrent =>
    split
    next => exact .inl rfl
    next t ht =>
      split_ifs
      · exact .inl rfl
      · refine .inr ⟨current, t, ?_⟩
        split <;> rename_i heq <;> rw [heq] <;> exact ⟨_, hcurrent, ht, rfl⟩

/-- `prepare_voluntary_yield` keeps the invariant. -/
theorem Inv.prepareVoluntaryYield (h : Inv s) (now : ℕ) :
    Inv (s.prepareVoluntaryYield now).2 := by
  obtain heq | ⟨current, t, stats, -, ht, heq⟩ := prepareVoluntaryYield_cases s now
  · rw [heq]
    exact h
  · have hschedule := (h.setTask (t := { t with resumeKind := .voluntary }) ht
      ⟨rfl, rfl, rfl, rfl⟩).schedule now
    rw [heq]
    exact ⟨hschedule.slots, hschedule.placed, hschedule.sumWeight, hschedule.sumWeightedRuntime⟩

/-! ## Blocking, sleeping and exiting -/

/-- `leave` on a live task, in terms of its slot. -/
theorem leave_eq {slot : ℕ} (ht : s.task id = some t) (hindex : s.index id = some slot) :
    ∃ lag average, s.leave id = { s with
      tasks := s.tasks.set slot (some { t with schedulerEntity.lag := lag })
      sumWeight := s.sumWeight - weightOf t
      sumWeightedRuntime := s.sumWeightedRuntime - weightedRuntimeOf t
      average } := by
  simp only [leave, ht, refreshAverage_eq, setTask_eq hindex]
  exact ⟨_, _, rfl⟩

/-- `stop_current` on a scheduler whose running task is not the idle task: it fails when nothing
runs, and otherwise takes the charged task off the CPU and out of the sums. -/
theorem Inv.stopRunning (h : Inv s) {state : TaskState}
    (hguard : ∀ id, s.current = some id → s.idle ≠ some id)
    (hallowed : TaskState.canTransition .running state = true) (now : ℕ) :
    (s.current = none ∧ s.stopRunning state now = (.error .unknownTask, s)) ∨
      ∃ id s₁ t₁ slot lag average, s₁ = (s.charge id now).2 ∧ s.current = some id ∧ Inv s₁ ∧
        s₁.current = some id ∧ s₁.task id = some t₁ ∧ t₁.isIdle = false ∧
        s₁.index id = some slot ∧ slot < s₁.tasks.length ∧
        s.stopRunning state now = (.ok id, { s₁ with
          tasks := s₁.tasks.set slot (some { t₁ with
            state, resumeKind := .voluntary, schedulerEntity.lag := lag })
          sumWeight := s₁.sumWeight - weightOf t₁
          sumWeightedRuntime := s₁.sumWeightedRuntime - weightedRuntimeOf t₁
          average
          current := none }) := by
  unfold Scheduler.stopRunning
  cases hcurrent : s.current with
  | none => exact Or.inl ⟨rfl, rfl⟩
  | some id =>
    obtain ⟨t₀, ht₀, hrunning⟩ := h.current_task hcurrent
    obtain ⟨t₁, hcharge, hrunning₁, hidle₁, hcurrent₁, -, -, -⟩ := h.charge ht₀ hrunning now
    obtain ⟨h₁, htask₁⟩ := h.edit ht₀ hcharge
    have hnotIdle : t₁.isIdle = false := by
      rw [hidle₁, Bool.eq_false_iff]
      exact fun hi => hguard id hcurrent ((h.placed.placedAs id t₀ ht₀).idle_iff.mpr hi)
    have ht₁ : (s.charge id now).2.task id = some t₁ := by rw [htask₁, Function.update_self]
    rw [hcurrent] at hcurrent₁
    simp only [ht₀, hrunning, ne_eq, not_true_eq_false, ↓reduceIte]
    generalize hs₁ : (s.charge id now).2 = s₁ at hcurrent₁ h₁ ht₁ ⊢
    obtain ⟨slot, hindex, hslot, -⟩ := h₁.slots.slot_of_task ht₁
    have hlt : slot < s₁.tasks.length := (List.getElem?_eq_some_iff.mp hslot).1
    obtain ⟨lag, average, hleave⟩ := leave_eq ht₁ hindex
    refine Or.inr ⟨id, s₁, t₁, slot, lag, average, hs₁.symm, rfl, h₁, hcurrent₁, ht₁, hnotIdle,
      hindex, hlt, ?_⟩
    simp only [hleave, task, hindex, Option.bind_some, List.getElem?_set_self hlt,
      Option.join_some, TaskControlBlock.transition, hrunning₁, hallowed, ↓reduceIte,
      Scheduler.setTask, List.set_set]

/-- The first half of `sleep`, `block` and `exit`, if the running task is not the idle task: it
fails when nothing runs, and otherwise takes the running task off the CPU and puts it where it
belongs. -/
theorem Inv.stopCurrent_cases (h : Inv s) {state : TaskState}
    {edit : TaskControlBlock → TaskControlBlock}
    {queue : ℕ → Scheduler → Scheduler} {sleepers : ℕ → Scheduler → List (ℕ × ℕ)}
    (hguard : ∀ id, s.current = some id → s.idle ≠ some id)
    (hstate : state = .blocked ∨ state = .exited)
    (hedit : ∀ t, (edit t).taskId = t.taskId ∧ (edit t).isIdle = t.isIdle ∧
      (edit t).schedulerEntity = t.schedulerEntity ∧ (edit t).state = t.state)
    (hqueue : ∀ id s, queue id s = { s with
      exitQueue := if state = .exited then s.exitQueue ++ [id] else s.exitQueue
      sleepers := sleepers id s })
    (now : ℕ) :
    (s.current = none ∧ s.stopCurrent state now = (.error .unknownTask, { s with clock := now })) ∨
      ∃ id s₁ t₁, s.current = some id ∧ s.stopCurrent state now = (.ok id, s₁) ∧
        s₁.task id = some t₁ ∧ (queue id (s₁.setTask id (edit t₁))).current = none ∧
        Inv (queue id (s₁.setTask id (edit t₁))) := by
  have hallowed : TaskState.canTransition .running state = true := by
    rcases hstate with rfl | rfl <;> rfl
  have hnotReady : state ≠ .ready := by rcases hstate with rfl | rfl <;> simp
  rcases (h.setClock now).stopRunning hguard hallowed now with
    ⟨hnone, hstop⟩ | ⟨id, s₁, t₁, slot, lag, average, -, hcurrent, h₁, hcurrent₁, ht₁,
      hnotIdle, hindex,
      hlt, hstop⟩
  · exact Or.inl ⟨hnone, hstop⟩
  · set t₂ : TaskControlBlock := { t₁ with
      state, resumeKind := .voluntary, schedulerEntity.lag := lag } with ht₂
    obtain ⟨hid, hidle, hentity, hst⟩ := hedit t₂
    have hst : (edit t₂).state = state := hst
    have hweight : weightOf (edit t₂) = weightOf t₁ := by rw [weightOf, hentity, weightOf]
    have hruntime : weightedRuntimeOf (edit t₂) = weightedRuntimeOf t₁ := by
      rw [weightedRuntimeOf, hentity, weightedRuntimeOf]
    refine Or.inr ⟨id, _, t₂, hcurrent, hstop, ?_, ?_, ?_⟩
    · simp only [task, hindex, Option.bind_some, List.getElem?_set_self hlt, Option.join_some]
    · simp only [hqueue, Scheduler.setTask, hindex]
    · simp only [hqueue, Scheduler.setTask, hindex, List.set_set]
      refine h₁.suspend hcurrent₁ ht₁ ⟨hid, hidle, by rw [hentity], by rw [hentity]⟩
        (Or.inr ⟨hst.symm ▸ hstate, hidle.trans hnotIdle⟩) ?_ ⟨rfl, rfl, rfl, rfl⟩ rfl ?_ ?_ ?_ ?_
      · simp [setTask_eq hindex]
      · simp [hst, hnotReady]
      · simp [hst]
      · simp [hst, hnotReady, hweight]
      · simp [hst, hnotReady, hruntime]

/-- The common end of `sleep`, `block` and `exit` keeps the invariant, if the running task is not
the idle task. -/
theorem Inv.stopThen (h : Inv s) {state : TaskState} {edit : TaskControlBlock → TaskControlBlock}
    {queue : ℕ → Scheduler → Scheduler} {sleepers : ℕ → Scheduler → List (ℕ × ℕ)}
    (hguard : ∀ id, s.current = some id → s.idle ≠ some id)
    (hstate : state = .blocked ∨ state = .exited)
    (hedit : ∀ t, (edit t).taskId = t.taskId ∧ (edit t).isIdle = t.isIdle ∧
      (edit t).schedulerEntity = t.schedulerEntity ∧ (edit t).state = t.state)
    (hqueue : ∀ id s, queue id s = { s with
      exitQueue := if state = .exited then s.exitQueue ++ [id] else s.exitQueue
      sleepers := sleepers id s })
    (now : ℕ) : Inv (s.stopThen state now edit queue).2 := by
  rcases h.stopCurrent_cases hguard hstate hedit hqueue now with
    ⟨-, hstop⟩ | ⟨id, s₁, t₁, -, hstop, ht₁, hnone, h₁⟩
  · simp only [Scheduler.stopThen, hstop]
    exact h.setClock now
  · simp only [Scheduler.stopThen, hstop, ht₁]
    exact h₁.switchToNext hnone _ now

/-- `sleep_current_until` keeps the invariant. -/
theorem Inv.sleepCurrentUntil (h : Inv s) (hguard : ∀ id, s.current = some id → s.idle ≠ some id)
    (deadline now : ℕ) : Inv (s.sleepCurrentUntil deadline now).2 := by
  unfold Scheduler.sleepCurrentUntil
  apply h.stopThen hguard (Or.inl rfl)
  · exact fun _ => ⟨rfl, rfl, rfl, rfl⟩
  · exact fun _ _ => rfl

/-- `block_current` keeps the invariant. -/
theorem Inv.blockCurrent (h : Inv s) (hguard : ∀ id, s.current = some id → s.idle ≠ some id)
    (reason : BlockReason) (queue : WaitQueue) (now : ℕ) :
    Inv (s.blockCurrent reason queue now).1.2 := by
  unfold Scheduler.blockCurrent
  apply h.stopThen hguard (Or.inl rfl)
  · exact fun _ => ⟨rfl, rfl, rfl, rfl⟩
  · exact fun _ _ => rfl

/-- `exit_current` keeps the invariant. -/
theorem Inv.exitCurrent (h : Inv s) (hguard : ∀ id, s.current = some id → s.idle ≠ some id)
    (status : ℤ) (now : ℕ) : Inv (s.exitCurrent status now).2 := by
  unfold Scheduler.exitCurrent
  apply h.stopThen hguard (Or.inr rfl)
  · exact fun _ => ⟨rfl, rfl, rfl, rfl⟩
  · exact fun _ _ => rfl

/-! ## Waking -/

/-- `join` on a live task, in terms of its slot. -/
theorem join_eq {slot : ℕ} (ht : s.task id = some t) (hindex : s.index id = some slot) :
    ∃ average wakeupPreempt, s.join id = { s with
      tasks := s.tasks.set slot (some { t with
        schedulerEntity := s.placedEntity t.schedulerEntity })
      sumWeight := s.sumWeight + (s.placedEntity t.schedulerEntity).weight
      sumWeightedRuntime := s.sumWeightedRuntime +
        (s.placedEntity t.schedulerEntity).weight * (s.placedEntity
          t.schedulerEntity).virtualRuntime
      runQueue := s.runQueue ++ [id]
      average
      wakeupPreempt } := by
  simp only [join, ht, refreshAverage_eq, setTask_eq hindex]
  split_ifs <;> exact ⟨_, _, rfl⟩

/-- Waking a blocked task keeps the invariant. -/
theorem Inv.makeReady (h : Inv s) (ht₀ : s.task id = some t₀) (hblocked : t₀.state = .blocked) :
    Inv (s.makeReady id) := by
  obtain ⟨slot, hindex, hslot, -⟩ := h.slots.slot_of_task ht₀
  have hlt : slot < s.tasks.length := (List.getElem?_eq_some_iff.mp hslot).1
  have hp := h.placed.placedAs id t₀ ht₀
  have hnotIdle : t₀.isIdle = false := by
    rw [Bool.eq_false_iff]
    intro hi
    have := hp.idle_runnable hi
    rw [hblocked] at this
    cases this
  have hnotRun : id ∉ s.runQueue := fun hmem => by
    rw [(hp.runQueue_iff.mp hmem).1] at hblocked
    cases hblocked
  have hnotExit : id ∉ s.exitQueue := fun hmem => by
    rw [hp.exitQueue_iff.mp hmem] at hblocked
    cases hblocked
  have hnotCurrent : s.current ≠ some id := fun hcur => by
    rw [hp.current_iff.mp hcur] at hblocked
    cases hblocked
  -- the task after the transition, before it joins
  set t₁ : TaskControlBlock := { t₀ with state := .ready, blockReason := none, waitLink := none }
    with ht₁
  set s₁ : Scheduler := { s with tasks := s.tasks.set slot (some t₁) } with hs₁
  have hfirst : s.makeReady id =
      { (s₁.join id) with stats.tasksWoken := saturatingSucc (s₁.join id).stats.tasksWoken } := by
    simp [Scheduler.makeReady, ht₀, TaskControlBlock.transition, hblocked, TaskState.canTransition,
      setTask_eq hindex, ← ht₁, ← hs₁]
  have htask₁ : s₁.task id = some t₁ := by simp [hs₁, task, hindex, hlt]
  obtain ⟨average, wakeup, hjoin⟩ := join_eq (s := s₁) htask₁ hindex
  rw [hfirst, hjoin]
  refine (h.edit ht₀ (t := { t₁ with
    schedulerEntity := s₁.placedEntity t₁.schedulerEntity }) ?_).1
  exact
    { tasks_eq := by simp [hs₁, setTask_eq hindex]
      frame := ⟨rfl, rfl, rfl, rfl⟩
      taskId_eq := rfl
      current_iff := fun id' _ => Iff.rfl
      runQueue_iff := fun id' hne => by simp [hs₁, hne]
      exitQueue_iff := fun id' _ => Iff.rfl
      runQueue_nodup := nodup_snoc h.placed.runQueue_nodup hnotRun
      exitQueue_nodup := h.placed.exitQueue_nodup
      placedAs :=
        { current_iff := by simp [ht₁, hs₁, hnotCurrent]
          runQueue_iff := by simp [ht₁, hnotIdle]
          exitQueue_iff := by simp [ht₁, hs₁, hnotExit]
          idle_iff := hp.idle_iff
          not_new := by simp [ht₁]
          idle_runnable := fun _ => by simp [ht₁, TaskState.isRunnable] }
      sumWeight_eq := by
        simp [hs₁, ht₁, contribution, hblocked, hnotIdle, TaskState.isRunnable, weightOf]
      sumWeightedRuntime_eq := by
        simp [hs₁, ht₁, contribution, hblocked, hnotIdle, TaskState.isRunnable,
          weightedRuntimeOf] }

/-- A popped sleeper that still sleeps is blocked. -/
theorem stillSleeping_iff {deadline : ℕ} : s.stillSleeping deadline id = true ↔
    ∃ t, s.task id = some t ∧ t.state = .blocked ∧ t.blockReason = some (.sleepUntil deadline) := by
  unfold stillSleeping
  cases ht : s.task id with
  | none => simp
  | some t => simp

/-- From `s` some blocked tasks were made ready, one after the other; if `pops`, sleepers may have
been popped in between. -/
inductive Roused (pops : Prop) (s : Scheduler) : Scheduler → Prop
  | refl : Roused pops s s
  | pop {s' : Scheduler} (hpops : pops) (h : Roused pops s s') :
      Roused pops s { s' with sleepers := s'.sleepers.dropLast }
  | makeReady {s' : Scheduler} {id : ℕ} {t : TaskControlBlock} (h : Roused pops s s')
      (ht : s'.task id = some t) (hblocked : t.state = .blocked) : Roused pops s (s'.makeReady id)

section Roused

variable {pops : Prop}

theorem Roused.weaken (h : Roused pops s s') : Roused True s s' := by
  induction h with
  | refl => exact .refl
  | pop _ _ ih => exact ih.pop trivial
  | makeReady _ ht hblocked ih => exact ih.makeReady ht hblocked

theorem Roused.wakeTask (h : Roused pops s s') (id : ℕ) : Roused pops s (s'.wakeTask id).2 := by
  unfold Scheduler.wakeTask
  split
  next => exact h
  next t ht =>
    split_ifs with hblocked
    · exact h
    · exact h.makeReady ht (not_not.mp hblocked)

theorem Roused.wakeOne (h : Roused pops s s') (queue : WaitQueue) :
    Roused pops s (s'.wakeOne queue).1.2 := by
  unfold Scheduler.wakeOne
  split
  next => exact h
  next id rest _ =>
    have hwake := h.wakeTask id
    split <;> rename_i heq <;> rw [heq] at hwake <;> exact hwake

/-- The tasks of a queue, whatever the queue holds. -/
theorem Roused.wakeAll (h : Roused pops s s') (queue : WaitQueue) (budget count : ℕ) :
    Roused pops s (s'.wakeAll queue budget count).1.2 := by
  -- induction on the loop bound, one wake-up a round
  induction budget generalizing s' queue count with
  | zero => exact h
  | succ budget ih =>
    have hwake := h.wakeOne queue
    rw [Scheduler.wakeAll]
    split <;> rename_i heq <;> rw [heq] at hwake
    · exact hwake
    · exact hwake
    · exact ih hwake _ _

theorem Roused.cancelWait (h : Roused pops s s') (id : ℕ) (queue : WaitQueue) :
    Roused pops s (s'.cancelWait id queue).1.2 := by
  unfold Scheduler.cancelWait
  split
  next => exact h
  next t ht =>
    split_ifs with hblocked
    · exact h
    · simp only [ne_eq, Bool.or_eq_true, decide_eq_true_eq, not_or, not_not] at hblocked
      exact h.makeReady ht hblocked.1
    · exact h

/-- The loop of `wake_expired`. -/
theorem Roused.wakeExpiredLoop (h : Roused True s s') (now budget woken : ℕ) :
    Roused True s (wakeExpiredLoop now budget woken s').2 := by
  induction budget generalizing s' woken with
  | zero => exact h
  | succ budget ih =>
    rw [Scheduler.wakeExpiredLoop]
    split
    next => exact h
    next deadline id _ =>
      simp only
      split_ifs with hlate hsleeping
      · exact h
      · obtain ⟨t, ht, hblocked, -⟩ := stillSleeping_iff.mp hsleeping
        exact ih ((h.pop trivial).makeReady ht hblocked) _
      · exact ih (h.pop trivial) _

theorem Roused.wakeExpired (h : Roused True s s') (now : ℕ) :
    Roused True s (s'.wakeExpired now).2 :=
  h.wakeExpiredLoop now _ 0

/-- Waking blocked tasks keeps the invariant. -/
theorem Inv.roused (h : Inv s) (hroused : Roused True s s') : Inv s' := by
  induction hroused with
  | refl => exact h
  | pop _ _ ih => exact ⟨ih.slots, ih.placed, ih.sumWeight, ih.sumWeightedRuntime⟩
  | makeReady _ ht hblocked ih => exact ih.makeReady ht hblocked

end Roused

/-! ## Nice values and ticks -/

/-- `set_nice` keeps the invariant: the sums follow the weight of a runnable task. -/
theorem Inv.setNice (h : Inv s) (id : ℕ) (nice : ℤ) : Inv (s.setNice id nice).2 := by
  unfold Scheduler.setNice
  cases ht₀ : s.task id with
  | none => exact h
  | some t₀ =>
    obtain ⟨slot, hindex, -, -⟩ := h.slots.slot_of_task ht₀
    simp only [isInRunnableSet, ht₀]
    split_ifs with hterminal hrunnable
    · exact h
    · refine (h.edit ht₀ (h.editInPlace (t := { t₀ with
        schedulerEntity := t₀.schedulerEntity.renice nice }) ht₀ ?_ ?_ ?_ rfl rfl rfl ?_ ?_)).1
      · simp [refreshAverage_eq]
      · simp [refreshAverage_eq, setTask_eq hindex]
      · simp [refreshAverage_eq, setTask_eq hindex]
      · simp only [refreshAverage_eq, setTask_eq hindex, contribution, hrunnable, ↓reduceIte,
          weightOf]
        ring
      · simp only [refreshAverage_eq, setTask_eq hindex, contribution, hrunnable, ↓reduceIte,
          weightedRuntimeOf]
        simp only [EevdfEntity.renice]
        ring
    · refine (h.edit ht₀ (h.editInPlace (t := { t₀ with
        schedulerEntity := t₀.schedulerEntity.renice nice }) ht₀ rfl ?_ ?_ rfl rfl rfl ?_ ?_)).1
      · simp [setTask_eq hindex]
      · simp [setTask_eq hindex]
      · simp only [setTask_eq hindex, contribution, hrunnable, Bool.false_eq_true, ↓reduceIte]
        ring
      · simp only [setTask_eq hindex, contribution, hrunnable, Bool.false_eq_true, ↓reduceIte]
        ring

/-- `tick` keeps the invariant. -/
theorem Inv.tick (h : Inv s) (now : ℕ) : Inv (s.tick now).2 := by
  have h₀ := h.setClock now
  unfold Scheduler.tick
  simp only
  split
  next => exact ⟨h₀.slots, h₀.placed, h₀.sumWeight, h₀.sumWeightedRuntime⟩
  next current hcurrent =>
    obtain ⟨hcurrent', -⟩ := Option.filter_eq_some_iff.mp hcurrent
    obtain ⟨t₀, ht₀, hrunning⟩ := h₀.current_task hcurrent'
    obtain ⟨t₁, hcharge, -⟩ := h₀.charge ht₀ hrunning now
    have h₁ := (h₀.edit ht₀ hcharge).1
    exact ⟨h₁.slots, h₁.placed, h₁.sumWeight, h₁.sumWeightedRuntime⟩

end Scheduler

end SaeOS.Task
