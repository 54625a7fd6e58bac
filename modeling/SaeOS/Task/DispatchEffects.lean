import SaeOS.Task.Dispatch

/-!
# The scheduler as the switch paths see it

Two facts about the scheduler that the switch paths need and the outlines do not give: task ids are
handed out once, since no operation but the creation of a task touches the counter, and the wake-ups
make blocked tasks ready and do nothing else.
-/

namespace SaeOS.Task

namespace Scheduler

variable (s : Scheduler) (id now : ℕ)

/-! ## The id counter -/

@[simp]
theorem nextTaskId_setTask (t : TaskControlBlock) : (s.setTask id t).nextTaskId = s.nextTaskId := by
  unfold setTask
  split <;> rfl

@[simp]
theorem nextTaskId_refreshAverage : s.refreshAverage.nextTaskId = s.nextTaskId := by
  unfold refreshAverage
  split <;> rfl

@[simp]
theorem nextTaskId_charge : (s.charge id now).2.nextTaskId = s.nextTaskId := by
  unfold charge
  split
  · rfl
  · simp only
    split_ifs <;> simp

@[simp]
theorem nextTaskId_leave : (s.leave id).nextTaskId = s.nextTaskId := by
  unfold leave
  split <;> simp

@[simp]
theorem nextTaskId_join : (s.join id).nextTaskId = s.nextTaskId := by
  unfold join
  split
  · rfl
  · simp only
    split_ifs <;> simp

@[simp]
theorem nextTaskId_pickNext : s.pickNext.2.nextTaskId = s.nextTaskId := by
  unfold pickNext
  split_ifs
  · rfl
  · simp only
    split <;> rfl

@[simp]
theorem nextTaskId_switchToNext (previous : Option ℕ) :
    (s.switchToNext previous now).2.nextTaskId = s.nextTaskId := by
  have hpick := ({ s with wakeupPreempt := false } : Scheduler).nextTaskId_pickNext
  unfold switchToNext
  generalize ({ s with wakeupPreempt := false } : Scheduler).pickNext = r at hpick
  obtain ⟨next, s₁⟩ := r
  cases next with
  | none =>
    simp only
    split_ifs <;> exact hpick
  | some next =>
    simp only
    cases ht : s₁.task next with
    | none => exact hpick
    | some t =>
      simp only
      cases t.transition .running with
      | error e => exact hpick
      | ok t' =>
        simp only
        split_ifs <;> exact (nextTaskId_setTask s₁ next _).trans hpick

theorem nextTaskId_requeueCurrent : (s.requeueCurrent now).2.nextTaskId = s.nextTaskId := by
  unfold requeueCurrent
  split
  · rfl
  split
  · rfl
  split_ifs
  · simp only
    split
    · exact nextTaskId_charge ..
    · split
      · exact nextTaskId_charge ..
      · split_ifs <;> simp
  · rfl

@[simp]
theorem nextTaskId_schedule : (s.schedule now).2.nextTaskId = s.nextTaskId := by
  have hrequeue := ({ s with clock := now } : Scheduler).nextTaskId_requeueCurrent now
  unfold schedule
  simp only
  split <;> rename_i heq <;> rw [heq] at hrequeue
  · exact hrequeue
  · rw [nextTaskId_switchToNext]
    exact hrequeue

theorem nextTaskId_preempt {stackPointer next : ℕ} {s' : Scheduler}
    (hrun : s.preempt stackPointer now = some (next, s')) : s'.nextTaskId = s.nextTaskId := by
  obtain ⟨stats, -, rfl⟩ := preempt_schedule hrun
  simp only [nextTaskId_schedule, savedFrame]
  split
  · rfl
  · split
    · rfl
    · simp

@[simp]
theorem nextTaskId_prepareVoluntaryYield :
    (s.prepareVoluntaryYield now).2.nextTaskId = s.nextTaskId := by
  obtain heq | ⟨current, t, stats, -, -, heq⟩ := prepareVoluntaryYield_cases s now
  · rw [heq]
  · simp [heq]

theorem nextTaskId_stopRunning (state : TaskState) :
    (s.stopRunning state now).2.nextTaskId = s.nextTaskId := by
  unfold stopRunning
  split
  · rfl
  split
  · rfl
  split_ifs
  · rfl
  simp only
  split
  · simp
  · split <;> simp

theorem nextTaskId_stopCurrent (state : TaskState) :
    (s.stopCurrent state now).2.nextTaskId = s.nextTaskId :=
  nextTaskId_stopRunning ..

theorem nextTaskId_stopThen (state : TaskState) (edit : TaskControlBlock → TaskControlBlock)
    (queue : ℕ → Scheduler → Scheduler)
    (hqueue : ∀ id s, (queue id s).nextTaskId = s.nextTaskId) :
    (s.stopThen state now edit queue).2.nextTaskId = s.nextTaskId := by
  have hstop := s.nextTaskId_stopCurrent now state
  unfold stopThen
  split <;> rename_i heq <;> rw [heq] at hstop
  · exact hstop
  · split
    · exact hstop
    · rw [nextTaskId_switchToNext, hqueue, nextTaskId_setTask]
      exact hstop

@[simp]
theorem nextTaskId_makeReady : (s.makeReady id).nextTaskId = s.nextTaskId := by
  unfold makeReady
  simp only [nextTaskId_join]
  split <;> simp

theorem nextTaskId_tick : (s.tick now).2.nextTaskId = s.nextTaskId := by
  unfold tick
  simp only
  split <;> simp

theorem nextTaskId_reapOne : s.reapOne.2.nextTaskId = s.nextTaskId := by
  unfold reapOne
  split
  · rfl
  split_ifs
  · rfl
  simp only
  split
  · rfl
  · split <;> rfl

theorem nextTaskId_spawn : s.spawn.2.nextTaskId = s.nextTaskId + 1 := by
  unfold spawn allocateId insertTask
  simp only [nextTaskId_join]
  split <;> rfl

/-! ## Wake-ups -/

/-- `s'` is `s` with some blocked tasks made ready. -/
structure Wakes (s s' : Scheduler) : Prop where
  inv : Inv s'
  current : s'.current = s.current
  nextTaskId : s'.nextTaskId = s.nextTaskId
  outline : ∀ id, s'.outline id = s.outline id ∨
    ∃ t, s.outline id = some t ∧ t.state = .blocked ∧ s'.outline id = some (woken t)

variable {s} {s' s'' : Scheduler} {id} {t : TaskControlBlock}

theorem Wakes.refl (h : Inv s) : Wakes s s :=
  ⟨h, rfl, rfl, fun _ => Or.inl rfl⟩

theorem Wakes.trans (h₁ : Wakes s s') (h₂ : Wakes s' s'') : Wakes s s'' := by
  refine ⟨h₂.inv, h₂.current.trans h₁.current, h₂.nextTaskId.trans h₁.nextTaskId, fun id => ?_⟩
  rcases h₁.outline id with hsame | ⟨t, ht, hblocked, hwoken⟩
  · rw [← hsame]
    exact h₂.outline id
  · -- a task that was woken is ready and not woken again
    rcases h₂.outline id with hsame | ⟨t', ht', hblocked', -⟩
    · exact Or.inr ⟨t, ht, hblocked, hsame.trans hwoken⟩
    · rw [hwoken] at ht'
      cases ht'
      cases hblocked'

theorem Inv.wakes_makeReady (h : Inv s) (ht : s.task id = some t) (hblocked : t.state = .blocked) :
    Wakes s (s.makeReady id) := by
  obtain ⟨houtline, hcurrent⟩ := h.outline_makeReady ht hblocked
  refine ⟨h.makeReady ht hblocked, hcurrent, nextTaskId_makeReady s id, fun id' => ?_⟩
  by_cases heq : id' = id
  · subst heq
    exact Or.inr ⟨t.outline, outline_of_task ht, hblocked, by rw [houtline, Function.update_self]⟩
  · exact Or.inl (by rw [houtline, Function.update_of_ne heq])

theorem Inv.wakes (h : Inv s) (hroused : Roused True s s') : Wakes s s' := by
  induction hroused with
  | refl => exact .refl h
  | pop _ _ ih =>
    exact ih.trans ⟨⟨ih.inv.slots, ih.inv.placed, ih.inv.sumWeight, ih.inv.sumWeightedRuntime⟩, rfl, rfl,
      fun _ => Or.inl rfl⟩
  | makeReady _ ht hblocked ih => exact ih.trans (ih.inv.wakes_makeReady ht hblocked)


end Scheduler

end SaeOS.Task
