import SaeOS.Lib.WeightedAverage
import SaeOS.Task.CpuTime

/-!
# The weighted average that the scheduler keeps

The cached average is the truncated quotient of the cached sums as long as anything is runnable, and no
task has weight zero. `Weighed` says both; every operation keeps it, since each change of the sums ends
in `refresh_average`. Nothing is asked of the callers here.
-/

namespace SaeOS.Task

/-- Every nice value has a weight. -/
theorem niceToWeight_pos (nice : ℤ) : 0 < niceToWeight nice := by
  have hall : ∀ w ∈ niceWeights, 0 < w := by decide
  have hlow : minNice ≤ clampNice nice := le_max_left ..
  have hhigh : clampNice nice ≤ maxNice := max_le (by decide) (min_le_right ..)
  have hlt : (clampNice nice - minNice).toNat < niceWeights.length := by
    have hlength : niceWeights.length = 40 := rfl
    rw [minNice] at hlow ⊢
    rw [maxNice] at hhigh
    omega
  rw [niceToWeight, List.getD_eq_getElem?_getD, List.getElem?_eq_getElem hlt]
  exact hall _ (List.getElem_mem hlt)

namespace Scheduler

variable {s s' : Scheduler} {id now : ℕ} {t t₀ : TaskControlBlock}

/-- The average is fresh while anything is runnable, and every task has a share. -/
structure Weighed (s : Scheduler) : Prop where
  average_eq : 0 < s.sumWeight → s.average = s.sumWeightedRuntime.tdiv s.sumWeight
  weight_pos : ∀ t, some t ∈ s.tasks → 0 < t.schedulerEntity.weight

/-! ## What changes the sums -/

theorem mem_tasks (ht : s.task id = some t) : some t ∈ s.tasks := by
  obtain ⟨slot, -, hjoin⟩ := Option.bind_eq_some_iff.mp ht
  exact List.mem_of_getElem? (Option.join_eq_some_iff.mp hjoin)

theorem Weighed.weight_task (h : Weighed s) (ht : s.task id = some t) : 0 < t.schedulerEntity.weight :=
  h.weight_pos t (mem_tasks ht)

/-- Writing a task does not touch the sums. -/
theorem Weighed.setTask (h : Weighed s) (hweight : 0 < t.schedulerEntity.weight) :
    Weighed (s.setTask id t) := by
  unfold Scheduler.setTask
  split
  · exact h
  · refine ⟨h.average_eq, fun t' ht' => ?_⟩
    rcases List.mem_or_eq_of_mem_set ht' with hold | hnew
    · exact h.weight_pos t' hold
    · obtain rfl := Option.some.inj hnew
      exact hweight

/-- Whatever happened to the sums, `refresh_average` brings the average up to date. -/
theorem Weighed.refreshAverage (h : Weighed s) (hweight : 0 < t.schedulerEntity.weight)
    (htasks : s'.tasks = (s.setTask id t).tasks) : Weighed s'.refreshAverage := by
  have hweights : ∀ t, some t ∈ s'.tasks → 0 < t.schedulerEntity.weight := by
    rw [htasks]
    exact (h.setTask hweight).weight_pos
  unfold Scheduler.refreshAverage
  split
  · exact ⟨fun _ => rfl, hweights⟩
  · next hnone => exact ⟨fun hpos => absurd hpos hnone, hweights⟩

theorem Weighed.charge (h : Weighed s) (id now : ℕ) : Weighed (s.charge id now).2 := by
  unfold Scheduler.charge
  cases ht : s.task id with
  | none => exact h
  | some t =>
    have hweight := h.weight_task ht
    dsimp only
    split
    · exact h.setTask hweight
    · refine h.refreshAverage ?_ rfl
      rwa [account_weight]

theorem Weighed.leave (h : Weighed s) (id : ℕ) : Weighed (s.leave id) := by
  unfold Scheduler.leave
  cases ht : s.task id with
  | none => exact h
  | some t =>
    have hweight := h.weight_task ht
    refine h.refreshAverage ?_ rfl
    exact hweight

theorem Weighed.enqueue {runQueue : List ℕ} (wakeupPreempt : Bool) (h : Weighed s) :
    Weighed { s with runQueue, wakeupPreempt } :=
  ⟨h.average_eq, h.weight_pos⟩

theorem Weighed.join (h : Weighed s) (id : ℕ) : Weighed (s.join id) := by
  unfold Scheduler.join
  cases ht : s.task id with
  | none => exact h
  | some t =>
    have hweight := h.weight_task ht
    dsimp only
    -- the queue and the preemption flag are set after the average
    split
    · refine Weighed.enqueue true (h.refreshAverage ?_ rfl)
      exact hweight
    · refine Weighed.enqueue _ (h.refreshAverage ?_ rfl)
      exact hweight

theorem Weighed.insertTask (h : Weighed s) (hweight : 0 < t.schedulerEntity.weight) :
    Weighed (s.insertTask t) := by
  unfold Scheduler.insertTask
  split
  · refine ⟨h.average_eq, fun t' ht' => ?_⟩
    rcases List.mem_or_eq_of_mem_set ht' with hold | hnew
    · exact h.weight_pos t' hold
    · obtain rfl := Option.some.inj hnew
      exact hweight
  · refine ⟨h.average_eq, fun t' ht' => ?_⟩
    rcases List.mem_append.mp ht' with hold | hnew
    · exact h.weight_pos t' hold
    · obtain rfl := Option.some.inj (List.mem_singleton.mp hnew)
      exact hweight

/-! ## The operations -/

theorem Weighed.spawn (h : Weighed s) : Weighed s.spawn.2 := by
  have hnew : Weighed (s.allocateId.2.insertTask { taskId := s.allocateId.1, state := .ready }) :=
    Weighed.insertTask ⟨h.average_eq, h.weight_pos⟩ (show 0 < nice0Weight by decide)
  exact hnew.join _

theorem Weighed.setNice (h : Weighed s) (id : ℕ) (nice : ℤ) : Weighed (s.setNice id nice).2 := by
  unfold Scheduler.setNice
  cases ht : s.task id with
  | none => exact h
  | some t =>
    have hweight : 0 < (t.schedulerEntity.renice nice).weight := niceToWeight_pos _
    dsimp only
    split
    · exact h
    split
    · refine h.refreshAverage ?_ rfl
      exact hweight
    · exact h.setTask hweight

theorem Weighed.tick (h : Weighed s) (now : ℕ) : Weighed (s.tick now).2 := by
  unfold Scheduler.tick
  dsimp only
  split
  · exact ⟨h.average_eq, h.weight_pos⟩
  · next current _ =>
    have hcharged := Weighed.charge (s := { s with clock := now }) ⟨h.average_eq, h.weight_pos⟩ current now
    exact ⟨hcharged.average_eq, hcharged.weight_pos⟩

/-- Moving a task to another state does not change its share. -/
theorem transition_entity {next : TaskState} (h : t.transition next = .ok t₀) :
    t₀.schedulerEntity = t.schedulerEntity := by
  unfold TaskControlBlock.transition at h
  split at h
  · obtain rfl := Except.ok.inj h
    rfl
  · contradiction

theorem Weighed.requeueCurrent (h : Weighed s) (now : ℕ) : Weighed (s.requeueCurrent now).2 := by
  unfold Scheduler.requeueCurrent
  cases hcurrent : s.current with
  | none => exact h
  | some current =>
    dsimp only
    cases ht : s.task current with
    | none => exact h
    | some t =>
      dsimp only
      split
      · have hcharged := h.charge current now
        cases ht₁ : (s.charge current now).2.task current with
        | none => exact hcharged
        | some t₁ =>
          have hweight := hcharged.weight_task ht₁
          dsimp only
          cases htransition : t₁.transition .ready with
          | error e => exact hcharged
          | ok t₂ =>
            rw [← transition_entity htransition] at hweight
            dsimp only
            split
            · exact hcharged.setTask hweight
            · have hset : Weighed (Scheduler.setTask _ current { t₂ with
                  schedulerEntity.enqueueTime := (s.charge current now).2.clock }) :=
                hcharged.setTask hweight
              exact ⟨hset.average_eq, hset.weight_pos⟩
      · exact h

theorem Weighed.stopRunning (h : Weighed s) (state : TaskState) (now : ℕ) :
    Weighed (s.stopRunning state now).2 := by
  unfold Scheduler.stopRunning
  cases hcurrent : s.current with
  | none => exact h
  | some current =>
    dsimp only
    cases ht : s.task current with
    | none => exact h
    | some t =>
      dsimp only
      split
      · exact h
      · have hleft := (h.charge current now).leave current
        cases ht₁ : ((s.charge current now).2.leave current).task current with
        | none => exact hleft
        | some t₁ =>
          have hweight := hleft.weight_task ht₁
          dsimp only
          cases htransition : ({ t₁ with resumeKind := .voluntary } : TaskControlBlock).transition state with
          | error e => exact hleft.setTask hweight
          | ok t₂ =>
            rw [← transition_entity htransition] at hweight
            have hset : Weighed (Scheduler.setTask _ current t₂) := hleft.setTask hweight
            exact ⟨hset.average_eq, hset.weight_pos⟩

theorem Weighed.switchToNext (h : Weighed s) (previous : Option ℕ) (now : ℕ) :
    Weighed (s.switchToNext previous now).2 := by
  unfold Scheduler.switchToNext
  obtain ⟨q, hq⟩ := pickNext_eq { s with wakeupPreempt := false }
  generalize ({ s with wakeupPreempt := false } : Scheduler).pickNext = picked at hq
  obtain ⟨next, s₁⟩ := picked
  dsimp only at hq
  have h₁ : Weighed s₁ := by
    rw [hq]
    exact ⟨h.average_eq, h.weight_pos⟩
  dsimp only
  cases next with
  | none =>
    dsimp only
    split <;> exact ⟨h₁.average_eq, h₁.weight_pos⟩
  | some id =>
    dsimp only
    cases ht : s₁.task id with
    | none => exact h₁
    | some t =>
      dsimp only
      have hweight := h₁.weight_task ht
      cases htransition : t.transition .running with
      | error e => exact h₁
      | ok t' =>
        rw [← transition_entity htransition] at hweight
        have hset : Weighed (Scheduler.setTask _ id { t' with
            dispatchedAt := now, sliceStart := now }) := h₁.setTask hweight
        dsimp only
        split <;> exact ⟨hset.average_eq, hset.weight_pos⟩

theorem Weighed.schedule (h : Weighed s) (now : ℕ) : Weighed (s.schedule now).2 := by
  unfold Scheduler.schedule
  have hclock : Weighed { s with clock := now } := ⟨h.average_eq, h.weight_pos⟩
  have hrequeue := hclock.requeueCurrent now
  dsimp only
  generalize ({ s with clock := now } : Scheduler).requeueCurrent now = outcome at hrequeue
  obtain ⟨result, s₁⟩ := outcome
  cases result with
  | error e => exact hrequeue
  | ok =>
    have hidle : Weighed { s₁ with current := none } := ⟨hrequeue.average_eq, hrequeue.weight_pos⟩
    exact hidle.switchToNext s.current now

/-- Saving the interrupt frame of the running task. -/
theorem Weighed.savedFrame (h : Weighed s) (stackPointer : ℕ) :
    Weighed (s.savedFrame stackPointer) := by
  unfold Scheduler.savedFrame
  cases hcurrent : s.current with
  | none => exact h
  | some current =>
    dsimp only
    cases ht : s.task current with
    | none => exact h
    | some t =>
      have hweight := h.weight_task ht
      exact h.setTask hweight

theorem Weighed.preempt (h : Weighed s) {stackPointer next : ℕ}
    (hrun : s.preempt stackPointer now = some (next, s')) : Weighed s' := by
  obtain ⟨stats, -, rfl⟩ := preempt_schedule hrun
  have hschedule := (h.savedFrame stackPointer).schedule now
  exact ⟨hschedule.average_eq, hschedule.weight_pos⟩

theorem Weighed.prepareVoluntaryYield (h : Weighed s) (now : ℕ) :
    Weighed (s.prepareVoluntaryYield now).2 := by
  obtain heq | ⟨current, t, stats, -, ht, heq⟩ := prepareVoluntaryYield_cases s now
  · rw [heq]
    exact h
  · have hweight := h.weight_task ht
    have hmarked : Weighed (s.setTask current { t with resumeKind := .voluntary }) := h.setTask hweight
    have hschedule := hmarked.schedule now
    rw [heq]
    exact ⟨hschedule.average_eq, hschedule.weight_pos⟩

/-- The common end of `sleep`, `block` and `exit`. -/
theorem Weighed.stopThen (h : Weighed s) (state : TaskState) (now : ℕ)
    {edit : TaskControlBlock → TaskControlBlock} {queue : ℕ → Scheduler → Scheduler}
    (hedit : ∀ t, (edit t).schedulerEntity = t.schedulerEntity)
    (hqueue : ∀ id s, Weighed s → Weighed (queue id s)) : Weighed (s.stopThen state now edit queue).2 := by
  unfold Scheduler.stopThen stopCurrent
  have hclock : Weighed { s with clock := now } := ⟨h.average_eq, h.weight_pos⟩
  have hstop := hclock.stopRunning state now
  generalize ({ s with clock := now } : Scheduler).stopRunning state now = outcome at hstop
  obtain ⟨result, s₁⟩ := outcome
  cases result with
  | error e => exact hstop
  | ok current =>
    dsimp only
    cases ht : s₁.task current with
    | none => exact hstop
    | some t =>
      have hweight := hstop.weight_task ht
      rw [← hedit] at hweight
      exact (hqueue current _ (hstop.setTask hweight)).switchToNext _ now

theorem Weighed.readied (h : Weighed s) (id : ℕ) :
    Weighed (match s.task id with
      | none => s
      | some t =>
        let t := match t.transition .ready with
          | .error _ => t
          | .ok t => t
        s.setTask id { t with blockReason := none, waitLink := none }) := by
  cases ht : s.task id with
  | none => exact h
  | some t =>
    have hweight := h.weight_task ht
    dsimp only
    cases htransition : t.transition .ready with
    | error e => exact h.setTask hweight
    | ok t₁ =>
      rw [← transition_entity htransition] at hweight
      exact h.setTask hweight

theorem Weighed.makeReady (h : Weighed s) (id : ℕ) : Weighed (s.makeReady id) := by
  have hjoined := (h.readied id).join id
  exact ⟨hjoined.average_eq, hjoined.weight_pos⟩

theorem Weighed.roused (h : Weighed s) (hroused : Roused True s s') : Weighed s' := by
  induction hroused with
  | refl => exact h
  | pop _ _ ih => exact ⟨ih.average_eq, ih.weight_pos⟩
  | makeReady _ _ _ ih => exact ih.makeReady _

theorem Weighed.reapOne (h : Weighed s) : Weighed s.reapOne.2 := by
  unfold Scheduler.reapOne
  split
  · exact h
  split
  · exact h
  dsimp only
  split
  · exact ⟨h.average_eq, h.weight_pos⟩
  split
  · exact ⟨h.average_eq, h.weight_pos⟩
  refine ⟨h.average_eq, fun t' ht' => ?_⟩
  rcases List.mem_or_eq_of_mem_set ht' with hold | hnew
  · exact h.weight_pos t' hold
  · contradiction

/-! ## The runnable tasks -/

/-- The tasks that take part in the average. -/
def runnable (s : Scheduler) : List TaskControlBlock :=
  s.tasks.filterMap fun slot => slot.filter fun t => !t.isIdle && t.state.isRunnable

theorem runnableSum_eq (s : Scheduler) (f : TaskControlBlock → ℤ) :
    runnableSum f s.tasks = (s.runnable.map f).sum := by
  rw [runnable, runnableSum]
  induction s.tasks with
  | nil => rfl
  | cons slot tasks ih =>
    rw [List.map_cons, List.sum_cons, ih, List.filterMap_cons]
    cases slot with
    | none => simp [contribution]
    | some t =>
      by_cases hrunnable : (!t.isIdle && t.state.isRunnable) = true
      · rw [Option.filter_some, if_pos hrunnable, List.map_cons, List.sum_cons, contribution, if_pos hrunnable]
      · rw [Option.filter_some, if_neg hrunnable, contribution, if_neg hrunnable, zero_add]

theorem mem_runnable : t ∈ s.runnable ↔ some t ∈ s.tasks ∧ t.isIdle = false ∧ t.state.isRunnable = true := by
  simp only [runnable, List.mem_filterMap, Option.filter_eq_some_iff, Bool.and_eq_true, Bool.not_eq_true']
  constructor
  · rintro ⟨slot, hmem, rfl, hrunnable⟩
    exact ⟨hmem, hrunnable⟩
  · rintro ⟨hmem, hrunnable⟩
    exact ⟨some t, hmem, rfl, hrunnable⟩

theorem Weighed.weightOf_pos (h : Weighed s) : ∀ t ∈ s.runnable, 0 < weightOf t := fun t ht =>
  Int.natCast_pos.mpr (h.weight_pos t (mem_runnable.mp ht).1)

/-- The sum of the weights is positive as soon as one task is runnable. -/
theorem Inv.sumWeight_pos (h : Inv s) (hw : Weighed s) (ht : t ∈ s.runnable) : 0 < s.sumWeight := by
  have hsum := List.sum_lt_sum_of_ne_nil (List.ne_nil_of_mem ht) (fun _ => 0) weightOf hw.weightOf_pos
  rw [h.sumWeight, runnableSum_eq]
  simpa using hsum

/-! ## Runs -/

theorem Weighed.initial (h : Initial s) : Weighed s := by
  obtain ⟨policy, rfl | rfl⟩ := h
  · exact ⟨fun _ => rfl, fun t ht => (by cases ht)⟩
  · refine ⟨fun _ => rfl, fun t ht => ?_⟩
    obtain rfl := Option.some.inj (List.mem_singleton.mp ht)
    exact show 0 < nice0Weight by decide

theorem Weighed.step (h : Weighed s) {op : Op} (hstep : Step s op s') : Weighed s' := by
  cases op with
  | spawn => exact hstep ▸ h.spawn
  | setNice id nice => exact hstep ▸ h.setNice id nice
  | tick now => exact hstep ▸ h.tick now
  | yieldCurrent now => exact hstep ▸ h.schedule now
  | preempt stackPointer now =>
    obtain ⟨next, hrun⟩ := hstep
    exact h.preempt hrun
  | prepareVoluntaryYield now => exact hstep ▸ h.prepareVoluntaryYield now
  | sleepCurrentUntil deadline now =>
    obtain ⟨-, rfl⟩ := hstep
    exact h.stopThen .blocked now (fun _ => rfl) fun _ _ h => ⟨h.average_eq, h.weight_pos⟩
  | wakeExpired now => exact hstep ▸ h.roused (.wakeExpired .refl now)
  | blockCurrent reason queue now =>
    obtain ⟨-, rfl⟩ := hstep
    exact h.stopThen .blocked now (fun _ => rfl) fun _ _ h => h
  | wakeOne queue => exact hstep ▸ h.roused (.wakeOne .refl queue)
  | wakeAll queue => exact hstep ▸ h.roused (.wakeAll .refl queue _ 0)
  | wakeTask id => exact hstep ▸ h.roused (.wakeTask .refl id)
  | cancelWait id queue => exact hstep ▸ h.roused (.cancelWait .refl id queue)
  | exitCurrent status now =>
    obtain ⟨-, rfl⟩ := hstep
    exact h.stopThen .exited now (fun _ => rfl) fun _ _ h => ⟨h.average_eq, h.weight_pos⟩
  | reapOne => exact hstep ▸ h.reapOne

theorem reachable_weighed (h : Run.Reachable Initial Step s) : Weighed s :=
  h.invariant (fun _ hinit => Weighed.initial hinit) fun _ _ _ hs hstep => hs.step hstep

end Scheduler

end SaeOS.Task
