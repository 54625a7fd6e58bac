import SaeOS.Task.Blocked

/-!
# Lag across a sleep

A task that stops records how far it is behind the average, within the clamp, and keeps that lag while it
is blocked. When it joins again while others are runnable, it is placed at that distance from the new
average, give or take two nanoseconds of virtual time.
-/

namespace SaeOS.Task

namespace Scheduler

variable {s s' s₁ s₂ : Scheduler} {id now : ℕ} {t t₀ : TaskControlBlock} {r : Rest}

/-! ## Joining -/

/-- `join` on a live task while others are runnable: the placed task, and the new average. -/
theorem average_join (hpos : 0 < s.sumWeight) (ht : s.task id = some t) :
    (s.join id).task id = some { t with schedulerEntity := s.placedEntity t.schedulerEntity } ∧
      (s.join id).average = (s.sumWeightedRuntime +
        t.schedulerEntity.weight * (s.placedEntity t.schedulerEntity).virtualRuntime).tdiv
          (s.sumWeight + t.schedulerEntity.weight) := by
  obtain ⟨slot, hindex, hjoin⟩ := Option.bind_eq_some_iff.mp ht
  have hlt : slot < s.tasks.length := by
    have hslot := Option.join_eq_some_iff.mp hjoin
    exact (List.getElem?_eq_some_iff.mp hslot).1
  have hweight : (s.placedEntity t.schedulerEntity).weight = t.schedulerEntity.weight := rfl
  have hsum : 0 < s.sumWeight + t.schedulerEntity.weight := by omega
  constructor
  · obtain ⟨average, wakeupPreempt, hplaced⟩ := join_eq ht hindex
    rw [hplaced]
    simp [task, hindex, hlt]
  · simp only [join, ht, refreshAverage_eq, setTask_eq hindex, hweight]
    rw [if_pos hsum]
    split <;> rfl

/-- A task that joins while others are runnable keeps its lag. -/
theorem Weighed.join_lag (h : Weighed s) (hpos : 0 < s.sumWeight) (ht : s.task id = some t) :
    ∃ t', (s.join id).task id = some t' ∧
      |(s.join id).average - t'.schedulerEntity.virtualRuntime - t.schedulerEntity.lag| ≤ 2 := by
  obtain ⟨htask, haverage⟩ := average_join hpos ht
  refine ⟨_, htask, ?_⟩
  -- the task is placed where the general estimate places it
  have hplace : (s.placedEntity t.schedulerEntity).virtualRuntime =
      WeightedAverage.place s.sumWeightedRuntime s.sumWeight t.schedulerEntity.weight t.schedulerEntity.lag := by
    rw [WeightedAverage.place, ← h.average_eq hpos]
    simp only [placedEntity, if_pos hpos]
  dsimp only
  rw [haverage, hplace]
  exact WeightedAverage.abs_place_error_le hpos (Int.natCast_nonneg _) _

/-- A woken task keeps its lag. -/
theorem Weighed.makeReady_lag (h : Weighed s) (hs : s.SlotsOk) (hpos : 0 < s.sumWeight)
    (ht : s.task id = some t) (hblocked : t.state = .blocked) :
    ∃ t', (s.makeReady id).task id = some t' ∧
      |(s.makeReady id).average - t'.schedulerEntity.virtualRuntime - t.schedulerEntity.lag| ≤ 2 := by
  have hready : t.transition .ready = .ok { t with state := .ready } := by
    rw [TaskControlBlock.transition, hblocked]
    rfl
  -- the task before it joins
  set t₁ : TaskControlBlock := { t with state := .ready, blockReason := none, waitLink := none } with ht₁
  have hweight := h.weight_task ht
  have hset : Weighed (s.setTask id t₁) := h.setTask hweight
  have hsum : (s.setTask id t₁).sumWeight = s.sumWeight := by
    unfold Scheduler.setTask
    split <;> rfl
  have hlookup : (s.setTask id t₁).task id = some t₁ := by
    rw [hs.task_setTask ht, Function.update_self]
  obtain ⟨t', ht', hlag⟩ := hset.join_lag (by rw [hsum]; exact hpos) hlookup
  simp only [Scheduler.makeReady, ht, hready]
  exact ⟨t', ht', hlag⟩

/-! ## Runs in which wake-ups come one by one -/

/-- One operation, or the pop of a sleeper: `wake_expired` pops and wakes, again and again. -/
def Advance (s : Scheduler) : Option Op → Scheduler → Prop
  | some op, s' => Step s op s'
  | none, s' => s' = { s with sleepers := s.sleepers.dropLast }

/-- The books are in order. -/
structure InOrder (s : Scheduler) : Prop where
  inv : Inv s
  weighed : Weighed s

theorem InOrder.advance (h : InOrder s) {label : Option Op} (hstep : Advance s label s') :
    InOrder s' := by
  cases label with
  | some op => exact ⟨h.inv.step hstep, h.weighed.step hstep⟩
  | none =>
    obtain rfl := hstep
    exact ⟨⟨h.inv.slots, h.inv.placed, h.inv.sumWeight, h.inv.sumWeightedRuntime⟩,
      ⟨h.weighed.average_eq, h.weighed.weight_pos⟩⟩

theorem advance_inOrder (h : Run.Reachable Initial Advance s) : InOrder s :=
  h.invariant (fun _ hinit => ⟨Inv.initial hinit, Weighed.initial hinit⟩)
    fun _ _ _ hs hstep => hs.advance hstep

/-- The task is blocked. -/
def Asleep (s : Scheduler) (id : ℕ) : Prop :=
  s.rest id ≠ none

/-- A blocked task keeps its lag as long as it stays blocked. -/
theorem InOrder.rest_advance (h : InOrder s) {label : Option Op} (hstep : Advance s label s')
    (hasleep : s'.Asleep id) (hrest : s.rest id = some r) : s'.rest id = some r := by
  cases label with
  | some op => exact (h.inv.rest_step hstep hrest).resolve_right hasleep
  | none =>
    obtain rfl := hstep
    exact hrest

/-- The runs from `s` in which this task stays blocked. -/
def SleepsUntil (s : Scheduler) (id : ℕ) (s' : Scheduler) : Prop :=
  Run.Reachable (fun s₀ => s₀ = s) (fun a label b => Advance a label b ∧ b.Asleep id) s'

theorem InOrder.sleepsUntil (h : InOrder s) (hrest : s.rest id = some r) (hrun : s.SleepsUntil id s') :
    InOrder s' ∧ s'.rest id = some r := by
  refine hrun.invariant (P := fun s' => InOrder s' ∧ s'.rest id = some r) (fun s₀ hstart => ?_)
    fun a label b hinv hstep => ?_
  · obtain rfl := hstart
    exact ⟨h, hrest⟩
  · exact ⟨hinv.1.advance hstep.1, hinv.1.rest_advance hstep.1 hstep.2 hinv.2⟩

/-! ## Leaving -/

/-- The lag with which the running task would leave at this time, once it is charged. -/
def lagAt (s : Scheduler) (id now : ℕ) : Option ℤ :=
  let s := (({ s with clock := now } : Scheduler).charge id now).2
  (s.task id).map fun t => leavingLag s.average t.schedulerEntity.virtualRuntime

/-- The time at which an operation puts the running task to rest. -/
def Op.blocksAt : Op → Option ℕ
  | .sleepCurrentUntil _ now => some now
  | .blockCurrent _ _ now => some now
  | _ => none

/-- Stopping the running task records its lag. -/
theorem Inv.stopCurrent_lag (h : Inv s) {state : TaskState}
    (hallowed : TaskState.canTransition .running state = true)
    (hstop : s.stopCurrent state now = (.ok id, s')) :
    ∃ t lag, s.lagAt id now = some lag ∧ s'.task id = some t ∧ t.schedulerEntity.lag = lag := by
  have h₀ := sound_setClock h.sound now
  rcases stopRunning_cases h₀ hallowed now with
    ⟨-, hfail⟩ | ⟨id', t, t', s₁, -, ht, -, ht', hrun, -, hwrote⟩
  · rw [stopCurrent, hfail] at hstop
    exact absurd (congrArg Prod.fst hstop) (by simp)
  · rw [stopCurrent, hrun] at hstop
    obtain ⟨hid, rfl⟩ := Prod.mk.inj hstop
    obtain rfl := Except.ok.inj hid
    have htaskId : t'.taskId = t.taskId := by rw [ht', chargedTask_taskId]
    obtain ⟨hcharged, -⟩ := wrote_charge now ht
    have hlookup : (({ s with clock := now } : Scheduler).charge id' now).2.task id' =
        some (chargedTask now t) := by
      rw [(hcharged.slots h₀.slots ht (chargedTask_taskId now t)).2, Function.update_self]
    refine ⟨t', _, by rw [lagAt, hlookup, Option.map_some], ?_, ?_⟩
    · rw [(hwrote.slots h₀.slots ht htaskId).2, Function.update_self]
    · rw [ht']

/-- A task that is put to rest carries the lag that it has once it is charged. -/
theorem Inv.rest_blocksAt (h : Inv s) {op : Op} (hstep : Step s op s₁) (hop : op.blocksAt = some now)
    (hcurrent : s.current = some id) :
    ∃ reason lag, s.lagAt id now = some lag ∧ s₁.rest id = some ⟨reason, lag⟩ := by
  have hrests : ∀ {edit : TaskControlBlock → TaskControlBlock} {queue : ℕ → Scheduler → Scheduler},
      (∀ t, (edit t).taskId = t.taskId ∧ (edit t).state = t.state ∧
        (edit t).schedulerEntity = t.schedulerEntity) →
      (∀ id s, SameSlots s (queue id s) ∧ (queue id s).current = s.current) →
      ∃ reason lag, s.lagAt id now = some lag ∧
        (s.stopThen .blocked now edit queue).2.rest id = some ⟨reason, lag⟩ := by
    intro edit queue hedit hqueue
    rcases h.sound.rest_stopThen (show TaskState.canTransition .running .blocked = true from rfl)
        (fun t => (hedit t).1) hqueue now with
      ⟨hnone, -⟩ | ⟨id', t, t', hid, -, -, ht, hblocked, -, hentity, hrest⟩
    · exact absurd (hnone.symm.trans hcurrent) (by simp)
    · obtain rfl := Option.some.inj (hid.symm.trans hcurrent)
      refine ⟨(edit t').blockReason, _, by rw [lagAt, ht, Option.map_some], ?_⟩
      rw [hrest, Function.update_self,
        TaskControlBlock.rest_of_blocked ((hedit t').2.1.trans hblocked), (hedit t').2.2, hentity]
  cases op with
  | sleepCurrentUntil deadline at' =>
    obtain rfl := Option.some.inj hop
    obtain ⟨-, rfl⟩ := hstep
    rw [Scheduler.sleepCurrentUntil]
    refine hrests ?_ ?_
    · exact fun _ => ⟨rfl, rfl, rfl⟩
    · exact fun _ _ => ⟨⟨rfl, rfl, rfl, rfl, rfl⟩, rfl⟩
  | blockCurrent reason queue at' =>
    obtain rfl := Option.some.inj hop
    obtain ⟨-, rfl⟩ := hstep
    rw [Scheduler.blockCurrent]
    refine hrests ?_ ?_
    · exact fun _ => ⟨rfl, rfl, rfl⟩
    · exact fun _ _ => ⟨⟨rfl, rfl, rfl, rfl, rfl⟩, rfl⟩
  | _ => contradiction

/-! ## Lag in every reachable state -/

/-- From this state on lag is kept: by a task that joins, when a task stops, and over a sleep. -/
structure KeepsLag (s : Scheduler) : Prop where
  joins : ∀ id t, s.task id = some t → t.state = .blocked → s.runnable ≠ [] →
    ∃ t', (s.makeReady id).task id = some t' ∧
      |(s.makeReady id).average - t'.schedulerEntity.virtualRuntime - t.schedulerEntity.lag| ≤ 2
  leaves : ∀ state now id s', TaskState.canTransition .running state = true →
    s.stopCurrent state now = (.ok id, s') →
    ∃ t lag, s.lagAt id now = some lag ∧ s'.task id = some t ∧ t.schedulerEntity.lag = lag
  sleeps : ∀ op now id s₁ s₂, Step s op s₁ → op.blocksAt = some now → s.current = some id →
    s₁.SleepsUntil id s₂ → s₂.runnable ≠ [] →
    ∃ t lag, s.lagAt id now = some lag ∧ (s₂.makeReady id).task id = some t ∧
      |(s₂.makeReady id).average - t.schedulerEntity.virtualRuntime - lag| ≤ 2

theorem InOrder.sumWeight_pos (h : InOrder s) (hne : s.runnable ≠ []) : 0 < s.sumWeight := by
  obtain ⟨t, ht⟩ := List.exists_mem_of_ne_nil _ hne
  exact h.inv.sumWeight_pos h.weighed ht

/-- Lag is kept in every reachable state, also between two wake-ups of one `wake_expired`. -/
theorem advance_keepsLag (h : Run.Reachable Initial Advance s) : s.KeepsLag := by
  have horder := advance_inOrder h
  refine ⟨fun id t ht hblocked hne => ?_, fun state now id s' hallowed hstop => ?_,
    fun op now id s₁ s₂ hstep hop hcurrent hrun hne => ?_⟩
  · exact horder.weighed.makeReady_lag horder.inv.slots (horder.sumWeight_pos hne) ht hblocked
  · exact horder.inv.stopCurrent_lag hallowed hstop
  · obtain ⟨reason, lag, hlag, hrest⟩ := horder.inv.rest_blocksAt hstep hop hcurrent
    have h₁ : InOrder s₁ := horder.advance (show Advance s (some op) s₁ from hstep)
    obtain ⟨h₂, hrest₂⟩ := h₁.sleepsUntil hrest hrun
    obtain ⟨t, ht, hblocked, -, heq⟩ := exists_task_of_rest hrest₂
    obtain ⟨t', ht', herror⟩ :=
      h₂.weighed.makeReady_lag h₂.inv.slots (h₂.sumWeight_pos hne) ht hblocked
    rw [heq] at herror
    exact ⟨t', lag, hlag, ht', herror⟩

/-- Two tasks, one of which runs. -/
def oneOfTwo : Scheduler :=
  ((((withPolicy .eevdf).spawnKernelTask true).2.spawn.2.spawn.2).yieldCurrent 10).2

theorem reachable_oneOfTwo : Run.Reachable Initial Advance oneOfTwo := by
  have hboot : Run.Reachable Initial Advance ((withPolicy .eevdf).spawnKernelTask true).2 :=
    .start ⟨.eevdf, Or.inr rfl⟩
  have hone := hboot.next (show Advance _ (some .spawn) _ from rfl)
  have htwo := hone.next (show Advance _ (some .spawn) _ from rfl)
  exact htwo.next (show Advance _ (some (.yieldCurrent 10)) _ from rfl)

/-- It sleeps and is woken at once. -/
theorem advance_keepsLag_oneOfTwo :
    ∃ t lag, oneOfTwo.lagAt 2 20 = some lag ∧
      ((oneOfTwo.sleepCurrentUntil 50 20).2.makeReady 2).task 2 = some t ∧
      |((oneOfTwo.sleepCurrentUntil 50 20).2.makeReady 2).average -
        t.schedulerEntity.virtualRuntime - lag| ≤ 2 := by
  have hcurrent : oneOfTwo.current = some 2 := by decide +kernel
  have hidle : oneOfTwo.idle = some 1 := by decide +kernel
  have hguard : oneOfTwo.NotIdle := by
    intro id hid
    obtain rfl := Option.some.inj (hid.symm.trans hcurrent)
    rw [hidle]
    decide
  have hothers : (oneOfTwo.sleepCurrentUntil 50 20).2.runnable ≠ [] := by decide +kernel
  exact (advance_keepsLag reachable_oneOfTwo).sleeps (.sleepCurrentUntil 50 20) 20 2 _ _
    ⟨hguard, rfl⟩ rfl hcurrent (.start rfl) hothers

end Scheduler

end SaeOS.Task
