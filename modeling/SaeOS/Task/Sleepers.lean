import SaeOS.Task.Blocked

/-!
# Sleepers

The sleeper list holds a key for every sleeping task, the next to wake at its end, and stale keys of
tasks that were woken another way. `wake_expired` pops keys up to the current time and wakes the
tasks that still sleep until just then: since every sleeping task has a key, it wakes all that are
due, once each.
-/

namespace SaeOS.Task

namespace Scheduler

variable {s s' s₁ : Scheduler} {id now : ℕ} {t t₀ : TaskControlBlock} {r : Rest}

/-! ## The sleeper list -/

theorem sleeperLt_iff {a b : ℕ × ℕ} : sleeperLt a b = true ↔ toLex a < toLex b := by
  rw [Prod.Lex.toLex_lt_toLex]
  simp [sleeperLt]

/-- The keys are in descending order; a key may come more than once. -/
def Descending (sleepers : List (ℕ × ℕ)) : Prop :=
  sleepers.Pairwise fun a b => toLex b ≤ toLex a

theorem mem_insertSleeper {sleepers : List (ℕ × ℕ)} {key key' : ℕ × ℕ} :
    key' ∈ insertSleeper sleepers key ↔ key' = key ∨ key' ∈ sleepers := by
  have hsplit : key' ∈ sleepers ↔ key' ∈ sleepers.takeWhile (sleeperLt key) ∨
      key' ∈ sleepers.dropWhile (sleeperLt key) := by
    rw [← List.mem_append, List.takeWhile_append_dropWhile]
  rw [insertSleeper, List.mem_append, List.mem_cons, hsplit]
  tauto

/-- A new key goes to its place. -/
theorem Descending.insertSleeper {sleepers : List (ℕ × ℕ)} (h : Descending sleepers) (key : ℕ × ℕ) :
    Descending (insertSleeper sleepers key) := by
  induction sleepers with
  | nil => exact List.pairwise_singleton ..
  | cons a sleepers ih =>
    obtain ⟨hfirst, hrest⟩ := List.pairwise_cons.mp h
    rw [Scheduler.insertSleeper, List.takeWhile_cons, List.dropWhile_cons]
    by_cases hlt : sleeperLt key a = true
    · rw [if_pos hlt, if_pos hlt]
      refine List.pairwise_cons.mpr ⟨fun b hb => ?_, ih hrest⟩
      rcases mem_insertSleeper.mp hb with rfl | hold
      · exact (sleeperLt_iff.mp hlt).le
      · exact hfirst b hold
    · rw [if_neg hlt, if_neg hlt]
      have hle : toLex a ≤ toLex key := not_lt.mp (sleeperLt_iff.not.mp hlt)
      refine List.pairwise_cons.mpr ⟨fun b hb => ?_, h⟩
      rcases List.mem_cons.mp hb with rfl | hold
      · exact hle
      · exact (hfirst b hold).trans hle

/-- The last key is the least. -/
theorem Descending.getLast_le {sleepers : List (ℕ × ℕ)} (h : Descending sleepers) {key key' : ℕ × ℕ}
    (hlast : sleepers.getLast? = some key) (hmem : key' ∈ sleepers) : toLex key ≤ toLex key' := by
  obtain ⟨front, rfl⟩ := List.getLast?_eq_some_iff.mp hlast
  rcases List.mem_append.mp hmem with hold | hsame
  · exact (List.pairwise_append.mp h).2.2 key' hold key (List.mem_singleton_self _)
  · rw [List.mem_singleton.mp hsame]

/-! ## Who sleeps -/

/-- The task is blocked in a sleep until this time. -/
def SleepsTill (s : Scheduler) (id deadline : ℕ) : Prop :=
  ∃ t, s.task id = some t ∧ t.state = .blocked ∧ t.blockReason = some (.sleepUntil deadline)

theorem sleepsTill_iff {deadline : ℕ} :
    s.SleepsTill id deadline ↔ ∃ r, s.rest id = some r ∧
      r.blockReason = some (.sleepUntil deadline) := by
  constructor
  · rintro ⟨t, ht, hblocked, hreason⟩
    exact ⟨_, (rest_of_task ht).trans (TaskControlBlock.rest_of_blocked hblocked), hreason⟩
  · rintro ⟨r, hrest, hreason⟩
    obtain ⟨t, ht, hblocked, heq, -⟩ := exists_task_of_rest hrest
    exact ⟨t, ht, hblocked, heq.trans hreason⟩

/-- The list is in order, and every sleeping task has a key in it. -/
structure SleepersOk (s : Scheduler) : Prop where
  descending : Descending s.sleepers
  listed : ∀ id deadline, s.SleepsTill id deadline → (deadline, id) ∈ s.sleepers

/-- Whoever sleeps afterwards slept before, and the list is the same. -/
theorem SleepersOk.of_rest (h : SleepersOk s) (hsleepers : s'.sleepers = s.sleepers)
    (hrest : ∀ id', s'.rest id' = s.rest id' ∨ s'.rest id' = none) : SleepersOk s' := by
  refine ⟨hsleepers ▸ h.descending, fun id deadline hsleeps => ?_⟩
  rw [hsleepers]
  obtain ⟨r, hr, hreason⟩ := sleepsTill_iff.mp hsleeps
  refine h.listed id deadline (sleepsTill_iff.mpr ⟨r, ?_, hreason⟩)
  rcases hrest id with hsame | hnone
  · exact hsame.symm.trans hr
  · exact absurd (hnone.symm.trans hr) (by simp)

/-! ## Waking what is due -/

/-- The task sleeps, and its time has come. -/
def Due (s : Scheduler) (now id : ℕ) : Prop :=
  ∃ deadline, s.SleepsTill id deadline ∧ deadline ≤ now

/-- From `s` to `s'` the tasks of `woken` were made ready, in this order, and no other task
changed. -/
structure Woke (s s' : Scheduler) (woken : List ℕ) : Prop where
  runQueue_eq : s'.runQueue = s.runQueue ++ woken
  ready : ∀ id ∈ woken, ∃ t, s'.task id = some t ∧ t.state = .ready ∧ t.blockReason = none
  others : ∀ id, id ∉ woken → s'.task id = s.task id

theorem woke_nil (s : Scheduler) : Woke s s [] :=
  ⟨(List.append_nil _).symm, fun _ hid => absurd hid List.not_mem_nil, fun _ _ => rfl⟩

theorem Woke.trans {woken woken' : List ℕ} (h : Woke s s₁ woken) (h' : Woke s₁ s' woken') :
    Woke s s' (woken ++ woken') where
  runQueue_eq := by rw [h'.runQueue_eq, h.runQueue_eq, List.append_assoc]
  ready id hid := by
    by_cases hlater : id ∈ woken'
    · exact h'.ready id hlater
    · rw [h'.others id hlater]
      exact h.ready id ((List.mem_append.mp hid).resolve_right hlater)
  others id hid := by
    rw [List.mem_append, not_or] at hid
    rw [h'.others id hid.2, h.others id hid.1]

/-- Making one blocked task ready. -/
theorem Slots.woke_makeReady (h : s.SlotsOk) (ht : s.task id = some t)
    (hblocked : t.state = .blocked) :
    Woke s (s.makeReady id) [id] ∧ (s.makeReady id).sleepers = s.sleepers := by
  have hready : t.transition .ready = .ok { t with state := .ready } := by
    rw [TaskControlBlock.transition, hblocked]
    rfl
  set t₁ : TaskControlBlock :=
    { t with state := .ready, blockReason := none, waitLink := none } with ht₁
  have hmake : s.makeReady id = { ((s.setTask id t₁).join id) with
      stats.tasksWoken := saturatingSucc ((s.setTask id t₁).join id).stats.tasksWoken } := by
    simp only [makeReady, ht, hready]
    rfl
  obtain ⟨slot, hindex, -, -⟩ := h.slot_of_task ht
  -- the task is rewritten twice: made ready, and placed
  have hset := setTask_eq (t := t₁) hindex
  have hslots₁ : (s.setTask id t₁).SlotsOk := ((wrote_setTask s id t₁).slots h ht rfl).1
  have htask₁ := h.task_setTask (t := t₁) ht
  have hlookup : (s.setTask id t₁).task id = some t₁ := by rw [htask₁, Function.update_self]
  have hindex₁ : (s.setTask id t₁).index id = some slot := by rw [hset]; exact hindex
  obtain ⟨average, wakeupPreempt, hjoin⟩ := join_eq hlookup hindex₁
  set t₂ : TaskControlBlock := { t₁ with
    schedulerEntity := (s.setTask id t₁).placedEntity t₁.schedulerEntity } with ht₂
  have htask : (s.makeReady id).task = Function.update s.task id (some t₂) := by
    have hplaced := hslots₁.task_setTask (t := t₂) hlookup
    rw [htask₁, Function.update_idem] at hplaced
    rw [← hplaced, setTask_eq hindex₁, hmake, hjoin]
    rfl
  refine ⟨⟨?_, fun id' hid' => ?_, fun id' hid' => ?_⟩, ?_⟩
  · rw [hmake, hjoin, hset]
  · obtain rfl := List.mem_singleton.mp hid'
    exact ⟨t₂, by rw [htask, Function.update_self], rfl, rfl⟩
  · rw [htask, Function.update_of_ne (fun heq => hid' (List.mem_singleton.mpr heq))]
  · rw [hmake, hjoin, hset]

/-- A woken task does not sleep, and the others sleep as before. -/
theorem Woke.sleepsTill_iff {woken : List ℕ} {deadline : ℕ} (h : Woke s s' woken) :
    s'.SleepsTill id deadline ↔ id ∉ woken ∧ s.SleepsTill id deadline := by
  by_cases hwoken : id ∈ woken
  · obtain ⟨t, ht, hready, -⟩ := h.ready id hwoken
    refine iff_of_false ?_ fun hboth => hboth.1 hwoken
    rintro ⟨t', ht', hblocked, -⟩
    obtain rfl := Option.some.inj (ht.symm.trans ht')
    exact absurd (hready.symm.trans hblocked) (by simp)
  · rw [SleepsTill, h.others id hwoken]
    exact ⟨fun hsleeps => ⟨hwoken, hsleeps⟩, fun hboth => hboth.2⟩

/-- What `wake_expired` does: `woken` are the tasks that are due, without repetition, and they are
made ready and counted. -/
structure WakesDue (s : Scheduler) (now : ℕ) (s' : Scheduler) (woken : List ℕ) : Prop where
  woke : Woke s s' woken
  nodup : woken.Nodup
  mem_iff : ∀ id, id ∈ woken ↔ s.Due now id

/-- Nobody is due when the last key of the list is not. -/
theorem SleepersOk.not_due (h : SleepersOk s)
    (hlast : ∀ key, s.sleepers.getLast? = some key → now < key.1) : ¬ s.Due now id := by
  rintro ⟨deadline, hsleeps, hdue⟩
  have hmem := h.listed id deadline hsleeps
  obtain ⟨key, hkey⟩ : ∃ key, s.sleepers.getLast? = some key :=
    Option.isSome_iff_exists.mp (List.getLast?_isSome.mpr (List.ne_nil_of_mem hmem))
  have hle := h.descending.getLast_le hkey hmem
  have hlt := hlast key hkey
  rw [Prod.Lex.toLex_le_toLex] at hle
  omega

/-- The loop of `wake_expired`, from any state in which the list is in order. -/
theorem SleepersOk.wakeExpiredLoop_spec (hs : SleepersOk s) (h : Inv s) {budget : ℕ}
    (hbudget : s.sleepers.length ≤ budget) (count : ℕ) :
    ∃ woken, (wakeExpiredLoop now budget count s).1 = count + woken.length ∧
      WakesDue s now (wakeExpiredLoop now budget count s).2 woken ∧
      SleepersOk (wakeExpiredLoop now budget count s).2 := by
  induction budget generalizing s count with
  | zero =>
    have hnone : s.sleepers.getLast? = none := by
      rw [List.eq_nil_of_length_eq_zero (Nat.le_zero.mp hbudget), List.getLast?_nil]
    refine ⟨[], rfl, ⟨woke_nil s, List.nodup_nil, fun id => ?_⟩, hs⟩
    exact iff_of_false List.not_mem_nil
      (hs.not_due fun key hkey => absurd (hnone.symm.trans hkey) (by simp))
  | succ budget ih =>
    rw [wakeExpiredLoop]
    cases hlast : s.sleepers.getLast? with
    | none =>
      refine ⟨[], rfl, ⟨woke_nil s, List.nodup_nil, fun id => ?_⟩, hs⟩
      exact iff_of_false List.not_mem_nil
        (hs.not_due fun key hkey => absurd (hlast.symm.trans hkey) (by simp))
    | some key =>
      obtain ⟨deadline, id⟩ := key
      dsimp only
      split
      · next hlate =>
        refine ⟨[], rfl, ⟨woke_nil s, List.nodup_nil, fun id => ?_⟩, hs⟩
        refine iff_of_false List.not_mem_nil (hs.not_due fun key hkey => ?_)
        obtain rfl := Option.some.inj (hlast.symm.trans hkey)
        exact hlate
      · next hdue =>
        obtain ⟨front, hfront⟩ := List.getLast?_eq_some_iff.mp hlast
        set s₁ : Scheduler := { s with sleepers := s.sleepers.dropLast } with hs₁
        have hpopped : s₁.sleepers = front := by
          rw [hs₁, hfront]
          exact List.dropLast_concat
        have h₁ : Inv s₁ := ⟨h.slots, h.placed, h.sumWeight, h.sumWeightedRuntime⟩
        have hdescending : Descending front := (List.pairwise_append.mp (hfront ▸ hs.descending)).1
        have hlength : front.length ≤ budget := by
          rw [hfront, List.length_append, List.length_singleton] at hbudget
          omega
        -- the popped key counts for its own task only
        have hlisted : ∀ id' deadline', s.SleepsTill id' deadline' →
            (deadline', id') ∈ front ∨ (deadline', id') = (deadline, id) := by
          intro id' deadline' hsleeps
          have hmem := hs.listed id' deadline' hsleeps
          rw [hfront, List.mem_append, List.mem_singleton] at hmem
          exact hmem
        split
        · next hsleeping =>
          obtain ⟨t, ht, hblocked, hreason⟩ := stillSleeping_iff.mp hsleeping
          have hsleeps : s.SleepsTill id deadline := ⟨t, ht, hblocked, hreason⟩
          obtain ⟨hwoke, hsame⟩ := Slots.woke_makeReady h₁.slots ht hblocked
          have h₂ : Inv (s₁.makeReady id) := h₁.makeReady ht hblocked
          have hs₂ : SleepersOk (s₁.makeReady id) := by
            rw [hpopped] at hsame
            refine ⟨hsame ▸ hdescending, fun id' deadline' hsleeps' => ?_⟩
            rw [hsame]
            obtain ⟨hne, hbefore⟩ := hwoke.sleepsTill_iff.mp hsleeps'
            refine (hlisted id' deadline' hbefore).resolve_right fun heq => hne ?_
            rw [List.mem_singleton]
            exact congrArg Prod.snd heq
          obtain ⟨woken, hcount, hwakes, hok⟩ :=
            ih hs₂ h₂ (by rw [hsame, hpopped]; exact hlength) (count + 1)
          have hdue₂ : ∀ id', (s₁.makeReady id).Due now id' ↔ id' ≠ id ∧ s.Due now id' := by
            intro id'
            constructor
            · rintro ⟨deadline', hsleeps', hle⟩
              obtain ⟨hne, hbefore⟩ := hwoke.sleepsTill_iff.mp hsleeps'
              exact ⟨fun heq => hne (List.mem_singleton.mpr heq), deadline', hbefore, hle⟩
            · rintro ⟨hne, deadline', hbefore, hle⟩
              refine ⟨deadline', hwoke.sleepsTill_iff.mpr ⟨fun hmem => ?_, hbefore⟩, hle⟩
              exact hne (List.mem_singleton.mp hmem)
          refine ⟨id :: woken, ?_, ⟨?_, ?_, fun id' => ?_⟩, hok⟩
          · rw [hcount, List.length_cons]
            omega
          · exact ⟨(hwoke.trans hwakes.woke).runQueue_eq, (hwoke.trans hwakes.woke).ready,
              (hwoke.trans hwakes.woke).others⟩
          · refine List.nodup_cons.mpr ⟨fun hmem => ?_, hwakes.nodup⟩
            exact ((hdue₂ id).mp ((hwakes.mem_iff id).mp hmem)).1 rfl
          · rw [List.mem_cons, hwakes.mem_iff, hdue₂]
            by_cases heq : id' = id
            · subst heq
              exact iff_of_true (.inl rfl) ⟨deadline, hsleeps, not_lt.mp hdue⟩
            · exact ⟨fun hor => (hor.resolve_left heq).2, fun hdue' => .inr ⟨heq, hdue'⟩⟩
        · next hnot =>
          have hs₁' : SleepersOk s₁ := by
            refine ⟨hpopped.symm ▸ hdescending, fun id' deadline' hsleeps' => ?_⟩
            rw [hpopped]
            refine (hlisted id' deadline' hsleeps').resolve_right fun heq => hnot ?_
            obtain ⟨rfl, rfl⟩ := Prod.mk.inj heq
            exact stillSleeping_iff.mpr hsleeps'
          obtain ⟨woken, hcount, hwakes, hok⟩ := ih hs₁' h₁ (by rw [hpopped]; exact hlength) count
          exact ⟨woken, hcount, ⟨⟨hwakes.woke.runQueue_eq, hwakes.woke.ready, hwakes.woke.others⟩,
            hwakes.nodup, hwakes.mem_iff⟩, hok⟩

/-! ## Who touches the list -/

theorem frame_switchToNext (s : Scheduler) (previous : Option ℕ) (now : ℕ) :
    Frame s (s.switchToNext previous now).2 := by
  unfold Scheduler.switchToNext
  obtain ⟨q, hq⟩ := pickNext_eq { s with wakeupPreempt := false }
  generalize ({ s with wakeupPreempt := false } : Scheduler).pickNext = picked at hq
  obtain ⟨next, s₁⟩ := picked
  dsimp only at hq
  have h₁ : Frame s s₁ := by
    rw [hq]
    exact ⟨rfl, rfl⟩
  dsimp only
  cases next with
  | none =>
    dsimp only
    split <;> exact ⟨h₁.policy_eq, h₁.sleepers_eq⟩
  | some id =>
    dsimp only
    cases ht : s₁.task id with
    | none => exact h₁
    | some t =>
      dsimp only
      cases t.transition .running with
      | error e => exact h₁
      | ok t' =>
        have hset := h₁.trans (frame_setTask s₁ id
          { t' with dispatchedAt := now, sliceStart := now })
        dsimp only
        split <;> exact ⟨hset.policy_eq, hset.sleepers_eq⟩

theorem frame_schedule (s : Scheduler) (now : ℕ) : Frame s (s.schedule now).2 := by
  unfold Scheduler.schedule
  have hrequeue := frame_requeueCurrent { s with clock := now } now
  dsimp only
  generalize ({ s with clock := now } : Scheduler).requeueCurrent now = outcome at hrequeue
  obtain ⟨result, s₁⟩ := outcome
  have h₁ : Frame s s₁ := ⟨hrequeue.policy_eq, hrequeue.sleepers_eq⟩
  cases result with
  | error e => exact h₁
  | ok =>
    have hidle : Frame s { s₁ with current := none } := ⟨h₁.policy_eq, h₁.sleepers_eq⟩
    exact hidle.trans (frame_switchToNext _ s.current now)

theorem frame_preempt {stackPointer next : ℕ}
    (hrun : s.preempt stackPointer now = some (next, s')) :
    Frame s s' := by
  have hschedule := (frame_savedFrame s stackPointer).trans
    (frame_schedule (s.savedFrame stackPointer) now)
  obtain ⟨stats, -, rfl⟩ := preempt_schedule hrun
  exact ⟨hschedule.policy_eq, hschedule.sleepers_eq⟩

theorem frame_prepareVoluntaryYield (s : Scheduler) (now : ℕ) :
    Frame s (s.prepareVoluntaryYield now).2 := by
  obtain heq | ⟨current, t, stats, -, -, heq⟩ := prepareVoluntaryYield_cases s now
  · rw [heq]
    exact frame_refl s
  · have hschedule := (frame_setTask s current { t with resumeKind := .voluntary }).trans
      (frame_schedule _ now)
    rw [heq]
    exact ⟨hschedule.policy_eq, hschedule.sleepers_eq⟩

theorem frame_join (s : Scheduler) (id : ℕ) : Frame s (s.join id) := by
  unfold Scheduler.join
  split
  · exact frame_refl s
  · have hplaced := fun t => frame_setTask s id t
    dsimp only
    split
    · exact ⟨(hplaced _).refreshAverage.policy_eq, (hplaced _).refreshAverage.sleepers_eq⟩
    · exact ⟨(hplaced _).refreshAverage.policy_eq, (hplaced _).refreshAverage.sleepers_eq⟩

theorem frame_spawn (s : Scheduler) : Frame s s.spawn.2 := by
  have hinsert : ∀ t, Frame s (s.allocateId.2.insertTask t) := by
    intro t
    unfold Scheduler.insertTask
    split <;> exact ⟨rfl, rfl⟩
  exact (hinsert _).trans (frame_join ..)

theorem frame_setNice (s : Scheduler) (id : ℕ) (nice : ℤ) : Frame s (s.setNice id nice).2 := by
  unfold Scheduler.setNice
  dsimp only
  split
  · exact frame_refl s
  split
  · exact frame_refl s
  split
  · exact (frame_setTask ..).refreshAverage
  · exact frame_setTask ..

theorem frame_tick (s : Scheduler) (now : ℕ) : Frame s (s.tick now).2 := by
  unfold Scheduler.tick
  dsimp only
  split
  · exact ⟨rfl, rfl⟩
  · next current _ =>
    have hcharge := frame_charge { s with clock := now } current now
    exact ⟨hcharge.policy_eq, hcharge.sleepers_eq⟩

theorem frame_readied (s : Scheduler) (id : ℕ) :
    Frame s (match s.task id with
      | none => s
      | some t =>
        let t := match t.transition .ready with
          | .error _ => t
          | .ok t => t
        s.setTask id { t with blockReason := none, waitLink := none }) := by
  split
  · exact frame_refl s
  · exact frame_setTask ..

theorem frame_makeReady (s : Scheduler) (id : ℕ) : Frame s (s.makeReady id) := by
  have hjoined := (frame_readied s id).trans (frame_join _ id)
  exact ⟨hjoined.policy_eq, hjoined.sleepers_eq⟩

theorem Roused.frame (h : Roused False s s') : Frame s s' := by
  induction h with
  | refl => exact frame_refl s
  | pop hpops => exact hpops.elim
  | makeReady _ _ _ ih => exact ih.trans (frame_makeReady ..)

theorem frame_reapOne (s : Scheduler) : Frame s s.reapOne.2 := by
  unfold Scheduler.reapOne
  split
  · exact frame_refl s
  split
  · exact frame_refl s
  dsimp only
  split
  · exact ⟨rfl, rfl⟩
  split <;> exact ⟨rfl, rfl⟩

/-- What `sleep`, `block` and `exit` do to the list is what they queue. -/
theorem sleepers_stopThen {state : TaskState} (edit : TaskControlBlock → TaskControlBlock)
    {queue : ℕ → Scheduler → Scheduler} {sleepers : ℕ → List (ℕ × ℕ) → List (ℕ × ℕ)}
    (hqueue : ∀ id s, (queue id s).sleepers = sleepers id s.sleepers)
    (hstop : (s.stopCurrent state now).1 = .ok id)
    (hlive : ∃ t, (s.stopCurrent state now).2.task id = some t) :
    (s.stopThen state now edit queue).2.sleepers = sleepers id s.sleepers := by
  have hstopped := (frame_stopRunning { s with clock := now } state now).sleepers_eq
  rw [← stopCurrent] at hstopped
  obtain ⟨t, ht⟩ := hlive
  unfold Scheduler.stopThen
  generalize s.stopCurrent state now = outcome at hstop hstopped ht ⊢
  obtain ⟨result, s₁⟩ := outcome
  dsimp only at hstop hstopped ht
  subst hstop
  simp only [ht]
  rw [(frame_switchToNext ..).sleepers_eq, hqueue, (frame_setTask ..).sleepers_eq, hstopped]

/-! ## Runs -/

/-- A stopped task has a key if it sleeps, and no key is lost. -/
theorem SleepersOk.stopThen (hs : SleepersOk s) (h : Inv s) {state : TaskState}
    {edit : TaskControlBlock → TaskControlBlock} {queue : ℕ → Scheduler → Scheduler}
    {sleepers : ℕ → List (ℕ × ℕ) → List (ℕ × ℕ)}
    (hallowed : TaskState.canTransition .running state = true)
    (hedit : ∀ t, (edit t).taskId = t.taskId)
    (hqueue : ∀ id s, SameSlots s (queue id s) ∧ (queue id s).current = s.current)
    (hsleepers : ∀ id s, (queue id s).sleepers = sleepers id s.sleepers)
    (hordered : ∀ id l, Descending l → Descending (sleepers id l))
    (hkept : ∀ id l key, key ∈ l → key ∈ sleepers id l)
    (hadded : ∀ id l t deadline, t.state = state → (edit t).state = .blocked →
      (edit t).blockReason = some (.sleepUntil deadline) →
        (deadline, id) ∈ sleepers id l) (now : ℕ) :
    SleepersOk (s.stopThen state now edit queue).2 := by
  rcases h.sound.rest_stopThen hallowed hedit hqueue now with
    ⟨-, -, hrun⟩ | ⟨current, t, t', -, hstop, hlive, -, hstate, -, -, hrest⟩
  · rw [hrun]
    exact ⟨hs.descending, hs.listed⟩
  · have hlist := sleepers_stopThen edit hsleepers hstop ⟨t', hlive⟩
    refine ⟨hlist ▸ hordered current _ hs.descending, fun id deadline hsleeps => ?_⟩
    rw [hlist]
    obtain ⟨r, hr, hreason⟩ := sleepsTill_iff.mp hsleeps
    rw [hrest] at hr
    by_cases heq : id = current
    · rw [heq, Function.update_self] at hr
      rw [heq]
      obtain ⟨hblocked, heq', -⟩ := TaskControlBlock.rest_eq_some hr
      exact hadded current _ t' deadline hstate hblocked (heq'.trans hreason)
    · rw [Function.update_of_ne heq] at hr
      exact hkept current _ _ (hs.listed id deadline (sleepsTill_iff.mpr ⟨r, hr, hreason⟩))

/-- `block_current` is for other reasons than a sleep: its callers pass the wait queue. -/
def Op.WaitsElsewhere : Op → Prop
  | .blockCurrent reason _ _ => ∀ deadline, reason ≠ .sleepUntil deadline
  | _ => True

theorem SleepersOk.roused (hs : SleepersOk s) (h : Inv s) (hroused : Roused False s s') :
    SleepersOk s' :=
  hs.of_rest hroused.frame.sleepers_eq (h.slots.onlyWakes hroused.weaken).rest

theorem SleepersOk.step (hs : SleepersOk s) (h : Inv s) {op : Op} (hop : op.WaitsElsewhere)
    (hstep : Step s op s') : SleepersOk s' := by
  cases op with
  | spawn =>
    obtain rfl := hstep
    exact hs.of_rest (frame_spawn s).sleepers_eq
      fun id => .inl (congrFun (Slots.rest_spawn h.slots) id)
  | setNice id nice =>
    obtain rfl := hstep
    exact hs.of_rest (frame_setNice s id nice).sleepers_eq
      fun id' => .inl (congrFun (Slots.rest_setNice h.slots id nice) id')
  | tick now =>
    obtain rfl := hstep
    exact hs.of_rest (frame_tick s now).sleepers_eq
      fun id => .inl (congrFun (h.sound.rest_tick now) id)
  | yieldCurrent now =>
    obtain rfl := hstep
    exact hs.of_rest (frame_schedule s now).sleepers_eq
      fun id => .inl (congrFun (h.sound.rest_schedule now) id)
  | preempt stackPointer now =>
    obtain ⟨next, hrun⟩ := hstep
    exact hs.of_rest (frame_preempt hrun).sleepers_eq
      fun id => .inl (congrFun (h.rest_preempt hrun) id)
  | prepareVoluntaryYield now =>
    obtain rfl := hstep
    exact hs.of_rest (frame_prepareVoluntaryYield s now).sleepers_eq
      fun id => .inl (congrFun (h.rest_prepareVoluntaryYield now) id)
  | sleepCurrentUntil deadline now =>
    obtain ⟨-, rfl⟩ := hstep
    rw [Scheduler.sleepCurrentUntil]
    refine hs.stopThen h ?_ ?_ ?_ ?_
      (fun id l hl => Descending.insertSleeper hl (deadline, id)) ?_ ?_ now
    · rfl
    · exact fun _ => rfl
    · exact fun _ _ => ⟨⟨rfl, rfl, rfl, rfl, rfl⟩, rfl⟩
    · exact fun _ _ => rfl
    · exact fun _ _ _ hmem => mem_insertSleeper.mpr (.inr hmem)
    · -- the stopped task sleeps until the deadline that was queued
      intro id l t deadline' _ _ hreason
      obtain rfl := BlockReason.sleepUntil.inj (Option.some.inj hreason)
      exact mem_insertSleeper.mpr (.inl rfl)
  | wakeExpired now =>
    obtain rfl := hstep
    obtain ⟨-, -, -, hok⟩ := hs.wakeExpiredLoop_spec h le_rfl 0
    exact hok
  | blockCurrent reason queue now =>
    obtain ⟨-, rfl⟩ := hstep
    rw [Scheduler.blockCurrent]
    refine hs.stopThen h ?_ ?_ ?_ ?_ (fun _ _ hl => hl) (fun _ _ _ hmem => hmem) ?_ now
    · rfl
    · exact fun _ => rfl
    · exact fun _ _ => ⟨⟨rfl, rfl, rfl, rfl, rfl⟩, rfl⟩
    · exact fun _ _ => rfl
    · intro id l t deadline _ _ hreason
      exact absurd (Option.some.inj hreason) (hop deadline)
  | wakeOne queue =>
    obtain rfl := hstep
    exact hs.roused h (.wakeOne .refl queue)
  | wakeAll queue =>
    obtain rfl := hstep
    exact hs.roused h (.wakeAll .refl queue _ 0)
  | wakeTask id =>
    obtain rfl := hstep
    exact hs.roused h (.wakeTask .refl id)
  | cancelWait id queue =>
    obtain rfl := hstep
    exact hs.roused h (.cancelWait .refl id queue)
  | exitCurrent status now =>
    obtain ⟨-, rfl⟩ := hstep
    rw [Scheduler.exitCurrent]
    refine hs.stopThen h ?_ ?_ ?_ ?_ (fun _ _ hl => hl) (fun _ _ _ hmem => hmem) ?_ now
    · rfl
    · exact fun _ => rfl
    · exact fun _ _ => ⟨⟨rfl, rfl, rfl, rfl, rfl⟩, rfl⟩
    · exact fun _ _ => rfl
    · intro id l t deadline hexited hblocked
      exact absurd (hexited.symm.trans hblocked) (by simp)
  | reapOne =>
    obtain rfl := hstep
    exact hs.of_rest (frame_reapOne s).sleepers_eq fun id => .inl (congrFun h.rest_reapOne id)

/-- The operations as they are called. -/
def SleepStep : Scheduler → Op → Scheduler → Prop :=
  Run.Guarded (fun _ op => op.WaitsElsewhere) Step

theorem SleepersOk.initial (h : Initial s) : SleepersOk s := by
  obtain ⟨policy, rfl | rfl⟩ := h
  · exact ⟨List.Pairwise.nil, fun id deadline ⟨t, ht, _⟩ => (by cases ht)⟩
  · refine ⟨List.Pairwise.nil, fun id deadline ⟨t, ht, hblocked, _⟩ => ?_⟩
    have hmem := mem_tasks ht
    obtain rfl := Option.some.inj (List.mem_singleton.mp hmem)
    contradiction

/-- In every reachable state the sleeper list is in order and holds every sleeping task, and
`wake_expired` makes ready, and counts, exactly the sleeping tasks whose time has come. -/
theorem reachable_wakesDue (h : Run.Reachable Initial SleepStep s) :
    SleepersOk s ∧ ∀ now, ∃ woken, WakesDue s now (s.wakeExpired now).2 woken ∧
      (s.wakeExpired now).1 = woken.length := by
  have hinv : Inv s ∧ SleepersOk s := by
    refine h.invariant (P := fun s => Inv s ∧ SleepersOk s) (fun s hinit => ?_)
      fun s op s' hs hstep => ?_
    · exact ⟨Inv.initial hinit, SleepersOk.initial hinit⟩
    · exact ⟨hs.1.step hstep.2, hs.2.step hs.1 hstep.1 hstep.2⟩
  refine ⟨hinv.2, fun now => ?_⟩
  obtain ⟨woken, hcount, hwakes, -⟩ := hinv.2.wakeExpiredLoop_spec hinv.1 le_rfl 0
  exact ⟨woken, hwakes, hcount.trans (Nat.zero_add _)⟩

/-- The running task sleeps, is woken early and sleeps again until the same time. -/
def twiceAsleep : Scheduler :=
  ((((oneRunning.sleepCurrentUntil 50 20).2.wakeTask 2).2.yieldCurrent
    30).2.sleepCurrentUntil 50 40).2

theorem reachable_twiceAsleep : Run.Reachable Initial SleepStep twiceAsleep := by
  have hspawn : Run.Reachable Initial SleepStep
    ((withPolicy .eevdf).spawnKernelTask true).2.spawn.2 :=
    .next (.start ⟨.eevdf, Or.inr rfl⟩) (show SleepStep _ .spawn _ from ⟨trivial, rfl⟩)
  have hrunning : Run.Reachable Initial SleepStep oneRunning :=
    hspawn.next (show SleepStep _ (.yieldCurrent 10) _ from ⟨trivial, rfl⟩)
  have hasleep := hrunning.next (show SleepStep _ (.sleepCurrentUntil 50 20) _ from
    ⟨trivial, oneRunning_notIdle, rfl⟩)
  have hwoken := hasleep.next (show SleepStep _ (.wakeTask 2) _ from ⟨trivial, rfl⟩)
  have hagain := hwoken.next (show SleepStep _ (.yieldCurrent 30) _ from ⟨trivial, rfl⟩)
  refine hagain.next (show SleepStep _ (.sleepCurrentUntil 50 40) _ from ⟨trivial,
    fun id hid => ?_, rfl⟩)
  have hcurrent : (((oneRunning.sleepCurrentUntil 50 20).2.wakeTask 2).2.yieldCurrent
    30).2.current = some 2 := by
    decide +kernel
  have hidle : (((oneRunning.sleepCurrentUntil 50 20).2.wakeTask 2).2.yieldCurrent 30).2.idle =
    some 1 := by
    decide +kernel
  obtain rfl := Option.some.inj (hid.symm.trans hcurrent)
  rw [hidle]
  decide

/-- It has two keys, and is woken once. -/
theorem reachable_wakesDue_twiceAsleep :
    twiceAsleep.sleepers = [(50, 2), (50, 2)] ∧ (twiceAsleep.wakeExpired 50).1 = 1 ∧
      SleepersOk twiceAsleep ∧ ∀ now, ∃ woken, WakesDue twiceAsleep now
        (twiceAsleep.wakeExpired now).2 woken ∧
        (twiceAsleep.wakeExpired now).1 = woken.length :=
  ⟨by decide +kernel, by decide +kernel, reachable_wakesDue reachable_twiceAsleep⟩

end Scheduler

end SaeOS.Task
