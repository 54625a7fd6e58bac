import SaeOS.Task.DispatchInvariant

/-!
# Runs of the switch paths

Every path that takes the CPU away ends in the same way: the outgoing task's record is rewritten, its
context is saved under the kind that the record then names, and the task that the scheduler picked is
resumed from the context that its own record names. `Inv.switched` is that argument, once; the paths
differ in what they save and in how they find the next task. The picked task may be the outgoing one,
so the outlines are rewritten one after the other and never assumed to be of two tasks.
-/

namespace SaeOS.Task

namespace Machine

variable {m m' : Machine} {id next current : ℕ} {t : TaskControlBlock}

/-! ## Switches -/

/-- What the CPU has loaded for a task. -/
def loadedFor (contexts : ℕ → TaskContext) (id : ℕ) : Cpu where
  addressSpace := (contexts id).addressSpace
  kernelStackTop := (contexts id).kernelStack.top
  fpu := (contexts id).fpu
  fsBase := (contexts id).fsBase

/-- The scheduler once the saved context of the next task is used up. -/
def consumed (s : Scheduler) (next : ℕ) (t : TaskControlBlock) : Scheduler :=
  match t.resumeKind with
  | .voluntary => s
  | .interrupt => s.setTask next { t with resumeKind := .voluntary }

/-- Using up a context leaves the task marked voluntary and changes nothing else. -/
theorem consumed_spec {s : Scheduler} (h : Scheduler.Inv s) (hn : s.task next = some t) :
    Scheduler.Inv (consumed s next t) ∧ (consumed s next t).current = s.current ∧
      (consumed s next t).nextTaskId = s.nextTaskId ∧
      (consumed s next t).outline = Function.update s.outline next
        (some { t.outline with resumeKind := .voluntary }) := by
  unfold consumed
  cases hkind : t.resumeKind with
  | voluntary =>
    -- the flag has that value already
    have hsame : ({ t.outline with resumeKind := .voluntary } : TaskControlBlock) = t.outline := by
      rw [← hkind]
      rfl
    refine ⟨h, rfl, rfl, ?_⟩
    rw [hsame, ← Scheduler.outline_of_task hn, Function.update_eq_self]
  | interrupt =>
    obtain ⟨slot, hindex, -, -⟩ := h.slots.slot_of_task hn
    refine ⟨h.setTask hn ⟨rfl, rfl, rfl, rfl⟩, ?_, Scheduler.nextTaskId_setTask ..,
      h.slots.outline_setTask hn⟩
    rw [Scheduler.setTask_eq hindex]

/-- Deciding a switch between live tasks. -/
theorem dispatchFor_eq {tc : TaskControlBlock} (hc : m.scheduler.task current = some tc)
    (hn : m.scheduler.task next = some t) :
    m.dispatchFor current next = some (match t.resumeKind with
        | .voluntary => .voluntary current next (m.switchTarget next)
        | .interrupt => .interrupt current next t.interruptStackPointer (m.switchTarget next),
      { m with scheduler := consumed m.scheduler next t }) := by
  cases hkind : t.resumeKind with
  | voluntary => simp only [dispatchFor, hc, hn, hkind, consumed]
  | interrupt => simp only [dispatchFor, hc, hn, hkind, consumed, setResumeKind]

/-- The contexts once a task is switched out and comes back. -/
def switchedOut (m : Machine) (current : ℕ) (continuation : VoluntaryContext) : ℕ → TaskContext :=
  Function.update m.contexts current
    { m.contexts current with fpu := m.cpu.fpu, cpuContext := continuation }

/-- A switch that the outgoing task comes back from. -/
theorem switchDispatch_eq (continuation : VoluntaryContext) {s' : Scheduler}
    (t : TaskControlBlock) :
    ({ m with scheduler := s' } : Machine).switchDispatch continuation (match t.resumeKind with
        | .voluntary => .voluntary current next (m.switchTarget next)
        | .interrupt => .interrupt current next t.interruptStackPointer (m.switchTarget next)) =
      { m with
        scheduler := s'
        contexts := m.switchedOut current continuation
        cpu := loadedFor (m.switchedOut current continuation) next
        log := m.log ++ [.resumed next
          (contextOf (m.switchedOut current continuation) m.frames next t)
          (m.switchedOut current continuation next).fpu] } := by
  have hcontexts : ∀ s', ((({ m with scheduler := s' } : Machine).prepareSwitch (some current)
      (m.switchTarget next)).saveContinuation current continuation) =
      { m with
        scheduler := s'
        contexts := m.switchedOut current continuation
        cpu := loadedFor (m.switchedOut current continuation) next } := by
    intro s'
    simp only [prepareSwitch, saveContinuation, switchedOut, Function.update_self,
      Function.update_idem, switchTarget, loadedFor]
    by_cases heq : next = current
    · subst heq
      simp
    · simp [Function.update_of_ne heq]
  cases hkind : t.resumeKind with
  | voluntary =>
    simp only [switchDispatch, hcontexts, resumeVoluntary, resume, note, contextOf, hkind, loadedFor]
  | interrupt =>
    simp only [switchDispatch, hcontexts, resumeInterrupt, resume, note, contextOf, hkind, loadedFor]

theorem lt_nextTaskId {s : Scheduler} (h : Scheduler.Inv s) (ho : s.outline id = some t) :
    id < s.nextTaskId := by
  obtain ⟨t', ht', -⟩ := Scheduler.exists_task_of_outline ho
  obtain ⟨slot, hindex, -, -⟩ := h.slots.slot_of_task ht'
  exact h.slots.id_lt id slot hindex

/-- The running task is switched out, or exits, and a ready task gets the CPU. -/
theorem Inv.switched (h : Inv m) (hcurrent : m.scheduler.current = some id)
    {t₁ : TaskControlBlock} {s' : Scheduler} {contexts' : ℕ → TaskContext}
    {frames' : ℕ → UserFrame} {e : Event} (hs' : Scheduler.Inv s')
    (hcurrent' : s'.current = some next) (hnext : s'.nextTaskId = m.scheduler.nextTaskId)
    (ho : Function.update m.scheduler.outline id (some t₁) next = some t)
    (hready : t.state = .ready)
    (houtline : s'.outline = Function.update (Function.update m.scheduler.outline id (some t₁)) next
      (some { t with state := .running, resumeKind := .voluntary }))
    (hcontexts : ∀ id', id' ≠ id → contexts' id' = m.contexts id')
    (hstack : (contexts' id).kernelStack = (m.contexts id).kernelStack)
    (hframes : ∀ id' t', id' ≠ id → m.scheduler.outline id' = some t' → Waiting t' →
      t'.resumeKind = .interrupt →
      frames' t'.interruptStackPointer = m.frames t'.interruptStackPointer)
    (he : e.task = id) (hfollows : Follows m.log e)
    (hsaved : Waiting t₁ → e = .saved id (contextOf contexts' frames' id t₁) (contexts' id).fpu ∧
      (t₁.resumeKind = .interrupt →
        frameInside (contexts' id).kernelStack t₁.interruptStackPointer = true)) :
    Inv {
      scheduler := s'
      contexts := contexts'
      frames := frames'
      cpu := loadedFor contexts' next
      log := m.log ++ [e] ++
        [.resumed next (contextOf contexts' frames' next t) (contexts' next).fpu] } := by
  have hparked : Parked (Function.update m.scheduler.outline id (some t₁)) contexts' frames'
      (m.log ++ [e]) := by
    refine h.parked.update hcontexts hframes he fun t₂ ht₂ hwaiting => ?_
    cases ht₂
    exact hsaved hwaiting
  have hrunning : ({ t with state := .running, resumeKind := .voluntary } : TaskControlBlock).state =
      .running := rfl
  obtain ⟨hlog, hdispatched⟩ := hparked.dispatch (h.log.append hfollows) ho hready hrunning
  obtain ⟨t₀, ht₀, -⟩ := h.scheduler.current_task hcurrent
  -- who is live now was live before
  have hlive : ∀ id' t', s'.outline id' = some t' → ∃ t'', m.scheduler.outline id' = some t'' := by
    intro id' t' ho'
    by_cases hid : id' = id
    · exact ⟨t₀.outline, hid ▸ Scheduler.outline_of_task ht₀⟩
    · by_cases hn : id' = next
      · subst hn
        rw [Function.update_of_ne hid] at ho
        exact ⟨t, ho⟩
      · rw [houtline, Function.update_of_ne hn, Function.update_of_ne hid] at ho'
        exact ⟨t', ho'⟩
  exact {
    scheduler := hs'
    log := hlog
    parked := by rw [houtline]; exact hdispatched
    running := fun id' hid' => by
      rw [hcurrent'] at hid'
      cases hid'
      exact ⟨_, _, lastEvent_append_self _ _⟩
    loaded := fun id' hid' => by
      rw [hcurrent'] at hid'
      cases hid'
      exact ⟨rfl, rfl, rfl⟩
    kernelStacks := h.kernelStacks.of_live hlive fun id' t' _ => by
      by_cases hid : id' = id
      · subst hid
        exact hstack
      · exact congrArg TaskContext.kernelStack (hcontexts id' hid)
    ids := fun e' he' => by
      rw [hnext]
      rcases List.mem_append.mp he' with he' | he'
      · rcases List.mem_append.mp he' with he' | he'
        · exact h.ids e' he'
        · rw [List.mem_singleton.mp he', he]
          exact lt_nextTaskId h.scheduler (Scheduler.outline_of_task ht₀)
      · rw [List.mem_singleton.mp he']
        obtain ⟨t'', ho''⟩ := hlive next _ (by rw [houtline, Function.update_self])
        exact lt_nextTaskId h.scheduler ho''
    unstarted := fun hnone => absurd (hcurrent'.symm.trans hnone) (by simp) }

/-- What the scheduler reports of a switch: a ready task of `o₁` was made running. -/
theorem dispatched_of_moved {o₁ : ℕ → Option TaskControlBlock} {idle : Option ℕ}
    {r : Outcome (Option ℕ)} (hdispatch : Scheduler.Dispatches o₁ idle r)
    (hcurrent : r.2.current = some next) :
    ∃ t, o₁ next = some t ∧ t.state = .ready ∧
      r.2.outline = Function.update o₁ next (some { t with state := .running }) := by
  rcases hdispatch.moved with ⟨hnone, -, -⟩ | ⟨id, t, ho, hready, hid, houtline⟩
  · exact absurd (hcurrent.symm.trans hnone) (by simp)
  · rw [hcurrent] at hid
    cases hid
    exact ⟨t, ho, hready, houtline⟩

/-- A task that was made running has the flag and the pointer it had. -/
theorem contextOf_running (contexts : ℕ → TaskContext) (frames : ℕ → UserFrame) (id : ℕ)
    {tn : TaskControlBlock} (hn : tn.outline = { t with state := .running }) :
    contextOf contexts frames id tn = contextOf contexts frames id t := by
  have hkind : tn.outline.resumeKind = t.resumeKind := by rw [hn]
  have hpointer : tn.outline.interruptStackPointer = t.interruptStackPointer := by rw [hn]
  change tn.resumeKind = _ at hkind
  change tn.interruptStackPointer = _ at hpointer
  simp only [contextOf, hkind, hpointer]

/-- Deciding the switch to the task that the scheduler has just made running, from a task that it
has rewritten. -/
theorem dispatchFor_dispatched (hs : Scheduler.Inv m.scheduler)
    {o : ℕ → Option TaskControlBlock} {t₁ : TaskControlBlock}
    (houtline : m.scheduler.outline = Function.update (Function.update o id (some t₁)) next
      (some { t with state := .running })) :
    ∃ (s' : Scheduler) (tn : TaskControlBlock), Scheduler.Inv s' ∧ s'.current = m.scheduler.current ∧
      s'.nextTaskId = m.scheduler.nextTaskId ∧
      s'.outline = Function.update (Function.update o id (some t₁)) next
        (some { t with state := .running, resumeKind := .voluntary }) ∧
      tn.outline = { t with state := .running } ∧
      m.dispatchFor id next = some (match tn.resumeKind with
        | .voluntary => .voluntary id next (m.switchTarget next)
        | .interrupt => .interrupt id next tn.interruptStackPointer (m.switchTarget next),
        { m with scheduler := s' }) := by
  have hout : m.scheduler.outline next = some { t with state := .running } := by
    rw [houtline, Function.update_self]
  obtain ⟨tn, htn, hntn⟩ := Scheduler.exists_task_of_outline hout
  -- the outgoing task still has a record
  obtain ⟨tc, htc⟩ : ∃ tc, m.scheduler.task id = some tc := by
    by_cases hid : id = next
    · exact ⟨tn, hid ▸ htn⟩
    · have hout : m.scheduler.outline id = some t₁ := by
        rw [houtline, Function.update_of_ne hid, Function.update_self]
      obtain ⟨tc, htc, -⟩ := Scheduler.exists_task_of_outline hout
      exact ⟨tc, htc⟩
  obtain ⟨hs', hcurrent', hnextId', houtline'⟩ := consumed_spec hs htn
  refine ⟨_, tn, hs', hcurrent', hnextId', ?_, hntn, dispatchFor_eq htc htn⟩
  rw [houtline', houtline, Function.update_idem, hntn]

/-- The running task gives up the CPU with a voluntary context and comes back later. -/
theorem Inv.switchAway (h : Inv m) (hcurrent : m.scheduler.current = some id)
    {t₁ : TaskControlBlock} (hkind : t₁.resumeKind = .voluntary) {s : Scheduler}
    (hs : Scheduler.Inv s) (hnextId : s.nextTaskId = m.scheduler.nextTaskId)
    (hnext : s.current = some next)
    (ho : Function.update m.scheduler.outline id (some t₁) next = some t)
    (hready : t.state = .ready)
    (houtline : s.outline = Function.update (Function.update m.scheduler.outline id (some t₁)) next
      (some { t with state := .running }))
    {continuation : VoluntaryContext}
    (hrun : ((note { m with scheduler := s }
        (.saved id (.voluntary continuation) m.cpu.fpu)).dispatchFor id next).map
        (fun decided => decided.2.switchDispatch continuation decided.1) = some m') : Inv m' := by
  set m₁ := note { m with scheduler := s } (.saved id (.voluntary continuation) m.cpu.fpu) with hm₁
  obtain ⟨s', tn, hs', hcurrent', hnextId', houtline', hntn, hdispatch⟩ :=
    dispatchFor_dispatched (m := m₁) hs houtline
  rw [hdispatch, Option.map_some] at hrun
  cases hrun
  rw [switchDispatch_eq continuation tn]
  have hswitched : m₁.switchedOut id continuation = m.switchedOut id continuation := rfl
  rw [hswitched, contextOf_running _ _ _ hntn]
  refine h.switched hcurrent hs' (hcurrent'.trans hnext) (hnextId'.trans hnextId) ho hready
    houtline' (fun id' hne => Function.update_of_ne hne ..) ?_ (fun _ _ _ _ _ _ => rfl) rfl
    (Or.inr (h.running id hcurrent)) fun _ => ⟨?_, fun hinterrupt => ?_⟩
  · rw [switchedOut, Function.update_self]
  · -- the call-boundary continuation is what the record leads to
    simp only [contextOf, hkind, switchedOut, Function.update_self]
  · exact absurd (hkind.symm.trans hinterrupt) (by simp)

/-! ## The voluntary switch paths -/

/-- `yield_now`: the running task stays ready and may be the one that is picked. -/
theorem Inv.yieldNow (h : Inv m) {continuation : VoluntaryContext} {now : ℕ}
    (hrun : m.yieldNow continuation now = some m') : Inv m' := by
  rcases h.scheduler.dispatches_prepareVoluntaryYield now with
    ⟨-, heq⟩ | ⟨id, r, hcurrent, houtline, hcurrent', hresult, hdispatch⟩
  · rw [Machine.yieldNow, heq] at hrun
    cases hrun
  · have hinv := h.scheduler.prepareVoluntaryYield now
    have hnextId := m.scheduler.nextTaskId_prepareVoluntaryYield now
    cases hr : r.2.current with
    | none =>
      rw [hr] at hresult
      rw [Machine.yieldNow, ← Prod.mk.eta (p := m.scheduler.prepareVoluntaryYield now), hresult] at hrun
      cases hrun
    | some next =>
      rw [hr] at hresult hcurrent'
      obtain ⟨t, ho, hready, hmoved⟩ := dispatched_of_moved hdispatch hr
      obtain ⟨t₀, ht₀, -⟩ := h.scheduler.current_task hcurrent
      rw [hcurrent, Scheduler.editCurrent, Scheduler.outline_of_task ht₀, Option.map_some] at ho hmoved
      rw [Machine.yieldNow, ← Prod.mk.eta (p := m.scheduler.prepareVoluntaryYield now), hresult] at hrun
      exact h.switchAway hcurrent rfl hinv hnextId hcurrent' ho hready (houtline.trans hmoved) hrun

/-- The end of `sleep_until` and `wait_event`: the running task is blocked. -/
theorem Inv.stopAway (h : Inv m) (hguard : m.scheduler.NotIdle)
    {edit : TaskControlBlock → TaskControlBlock} {queue : ℕ → Scheduler → Scheduler}
    (sleepers : ℕ → Scheduler → List (ℕ × ℕ))
    (hedit : ∀ t, (edit t).taskId = t.taskId ∧ (edit t).isIdle = t.isIdle ∧
      (edit t).schedulerEntity = t.schedulerEntity ∧ (edit t).state = t.state)
    (houtline : ∀ t, (edit t).outline = edit t.outline)
    (hkind : ∀ t, (edit t).resumeKind = t.resumeKind)
    (hqueue : ∀ id s, queue id s = { s with sleepers := sleepers id s })
    {continuation : VoluntaryContext} {now : ℕ}
    (hinv : Scheduler.Inv (m.scheduler.stopThen .blocked now edit queue).2)
    (hrun : m.switchAway continuation (m.scheduler.stopThen .blocked now edit queue) = some m') :
    Inv m' := by
  have hnextId := m.scheduler.nextTaskId_stopThen now .blocked edit queue fun id s => by rw [hqueue]
  rcases h.scheduler.dispatches_stopThen .blocked edit queue sleepers hguard (Or.inl rfl) hedit
    houtline (fun id s => by rw [hqueue]; rfl) now with
    ⟨-, heq⟩ | ⟨id, t₀, hcurrent, ho₀, -, -, hdispatch⟩
  · rw [heq] at hrun
    cases hrun
  · generalize m.scheduler.stopThen .blocked now edit queue = r at *
    obtain ⟨r₁, r₂⟩ := r
    have hok : r₁ = .ok r₂.current := hdispatch.ok
    subst hok
    cases hr : r₂.current with
    | none =>
      simp only [Machine.switchAway, hcurrent, hr] at hrun
      cases hrun
    | some next =>
      obtain ⟨t, ho, hready, hmoved⟩ := dispatched_of_moved hdispatch hr
      simp only [Machine.switchAway, hcurrent, hr] at hrun
      exact h.switchAway hcurrent (hkind _) hinv hnextId hr ho hready hmoved hrun

theorem Inv.sleepUntil (h : Inv m) (hguard : m.scheduler.NotIdle) {deadline now : ℕ}
    {continuation : VoluntaryContext}
    (hrun : m.sleepUntil deadline continuation now = some m') : Inv m' := by
  have hinv := h.scheduler.sleepCurrentUntil hguard deadline now
  unfold Machine.sleepUntil at hrun
  unfold Scheduler.sleepCurrentUntil at hrun hinv
  refine h.stopAway hguard (fun id s => Scheduler.insertSleeper s.sleepers (deadline, id))
    ?_ ?_ ?_ (fun _ _ => rfl) hinv hrun
  · exact fun _ => ⟨rfl, rfl, rfl, rfl⟩
  · exact fun _ => rfl
  · exact fun _ => rfl

theorem Inv.waitEvent (h : Inv m) (hguard : m.scheduler.NotIdle) {queue : WaitQueue} {now : ℕ}
    {continuation : VoluntaryContext}
    (hrun : m.waitEvent queue continuation now = some m') : Inv m' := by
  have hinv := h.scheduler.blockCurrent hguard (.waitQueue queue.id) queue now
  unfold Machine.waitEvent at hrun
  unfold Scheduler.blockCurrent at hrun hinv
  refine h.stopAway hguard (fun _ s => s.sleepers) ?_ ?_ ?_ (fun _ _ => rfl) hinv hrun
  · exact fun _ => ⟨rfl, rfl, rfl, rfl⟩
  · exact fun _ => rfl
  · exact fun _ => rfl

/-! ## Exiting -/

/-- The contexts once a task has left for good. The switch out of an exiting task writes its
continuation when the next task resumes voluntarily; nobody reads it. -/
def switchedFrom (m : Machine) (current : ℕ) (continuation : VoluntaryContext)
    (t : TaskControlBlock) : ℕ → TaskContext :=
  match t.resumeKind with
  | .voluntary =>
    Function.update m.contexts current { m.contexts current with cpuContext := continuation }
  | .interrupt => m.contexts

theorem switchedFrom_of_ne {continuation : VoluntaryContext} (hne : id ≠ current) :
    m.switchedFrom current continuation t id = m.contexts id := by
  cases hkind : t.resumeKind with
  | voluntary => simp only [switchedFrom, hkind, Function.update_of_ne hne]
  | interrupt => simp only [switchedFrom, hkind]

theorem switchedFrom_kernelStack {continuation : VoluntaryContext} :
    (m.switchedFrom current continuation t current).kernelStack =
      (m.contexts current).kernelStack := by
  cases hkind : t.resumeKind with
  | voluntary => simp only [switchedFrom, hkind, Function.update_self]
  | interrupt => simp only [switchedFrom, hkind]

/-- A switch that the outgoing task does not come back from. -/
theorem switchExited_eq (continuation : VoluntaryContext) {s' : Scheduler} (t : TaskControlBlock)
    (hne : next ≠ current) :
    ({ m with scheduler := s' } : Machine).switchExited continuation (match t.resumeKind with
        | .voluntary => .voluntary current next (m.switchTarget next)
        | .interrupt => .interrupt current next t.interruptStackPointer (m.switchTarget next)) =
      { m with
        scheduler := s'
        contexts := m.switchedFrom current continuation t
        cpu := loadedFor (m.switchedFrom current continuation t) next
        log := m.log ++ [.resumed next
          (contextOf (m.switchedFrom current continuation t) m.frames next t)
          (m.switchedFrom current continuation t next).fpu] } := by
  cases hkind : t.resumeKind with
  | voluntary =>
    simp only [switchExited, prepareSwitch, saveContinuation, resumeVoluntary, resume, note,
      contextOf, hkind, loadedFor, switchedFrom, switchTarget, Function.update_of_ne hne]
  | interrupt =>
    simp only [switchExited, prepareSwitch, resumeInterrupt, resume, note, contextOf, hkind,
      loadedFor, switchedFrom, switchTarget]

/-- `exit_current`: the task is gone, and the next task is another one. -/
theorem Inv.exitCurrent (h : Inv m) (hguard : m.scheduler.NotIdle) {status : ℤ} {now : ℕ}
    {continuation : VoluntaryContext}
    (hrun : m.exitCurrent status continuation now = some m') : Inv m' := by
  have hinv := h.scheduler.exitCurrent hguard status now
  have hnextId : (m.scheduler.exitCurrent status now).2.nextTaskId = m.scheduler.nextTaskId :=
    m.scheduler.nextTaskId_stopThen now .exited _ _ fun _ _ => rfl
  have hstop := h.scheduler.dispatches_stopThen .exited
    (fun t => { t with exitStatus := some status, blockReason := none })
    (fun current s => { s with exitQueue := s.exitQueue ++ [current] }) (fun _ s => s.sleepers)
    hguard (Or.inr rfl) (fun _ => ⟨rfl, rfl, rfl, rfl⟩) (fun _ => rfl) (fun _ _ => rfl) now
  rw [show m.scheduler.stopThen .exited now _ _ = m.scheduler.exitCurrent status now from rfl] at hstop
  unfold Machine.exitCurrent at hrun
  rcases hstop with ⟨hnone, -⟩ | ⟨id, t₀, hcurrent, ho₀, -, -, hdispatch⟩
  · rw [hnone] at hrun
    cases hrun
  · rw [hcurrent] at hrun
    generalize m.scheduler.exitCurrent status now = r at *
    obtain ⟨r₁, s⟩ := r
    have hok : r₁ = .ok s.current := hdispatch.ok
    subst hok
    rcases hdispatch.moved with ⟨hnone, hidle, -⟩ | ⟨next, t, ho, hready, hnext, houtline⟩
    · -- with nothing left to run the kernel panics
      have hidle' : s.idle = none := hdispatch.idle_eq.trans hidle
      change s.current = none at hnone
      simp only [Except.toOption, hnone, Option.join_some, hidle', Option.or_none] at hrun
      cases hrun
    · change s.current = some next at hnext
      simp only [Except.toOption, hnext, Option.join_some, Option.some_or] at hrun
      -- the exited task is not ready, so it is not picked
      have hne : next ≠ id := by
        rintro rfl
        rw [Function.update_self] at ho
        cases ho
        cases hready
      set m₁ := note { m with scheduler := s } (.exited id) with hm₁
      obtain ⟨s', tn, hs', hcurrent', hnextId', houtline', hntn, hdecided⟩ :=
        dispatchFor_dispatched (m := m₁) hinv houtline
      rw [hdecided, Option.map_some] at hrun
      cases hrun
      rw [switchExited_eq continuation tn hne]
      have hswitched : m₁.switchedFrom id continuation tn = m.switchedFrom id continuation tn := rfl
      rw [hswitched, contextOf_running _ _ _ hntn]
      refine h.switched hcurrent hs' (hcurrent'.trans hnext) (hnextId'.trans hnextId) ho hready
        houtline' (fun id' hid' => switchedFrom_of_ne hid') switchedFrom_kernelStack
        (fun _ _ _ _ _ _ => rfl) rfl (h.running id hcurrent) fun hwaiting => ?_
      -- an exited task does not wait
      rcases hwaiting with hstate | hstate <;> cases hstate

/-! ## Wake-ups and interrupts -/

/-- A change of the scheduler that no saved context is affected by: who is live was live before with
the same flag and pointer, and who waits was waiting. -/
theorem Inv.unaffected (h : Inv m) {s : Scheduler} (hs : Scheduler.Inv s)
    (hcurrent : s.current = m.scheduler.current) (hnextId : s.nextTaskId = m.scheduler.nextTaskId)
    (hbefore : ∀ id t, s.outline id = some t → ∃ t₀, m.scheduler.outline id = some t₀ ∧
      (Waiting t → Waiting t₀) ∧ (t₀.state = .ready → t.state = .ready) ∧
      t.resumeKind = t₀.resumeKind ∧ t.interruptStackPointer = t₀.interruptStackPointer) :
    Inv { m with scheduler := s } where
  scheduler := hs
  log := h.log
  parked := by
    constructor
    · intro id t ho hwaiting
      obtain ⟨t₀, ho₀, hwaiting₀, -, hkind, hpointer⟩ := hbefore id t ho
      rw [h.parked.saved id t₀ ho₀ (hwaiting₀ hwaiting)]
      simp only [contextOf, hkind, hpointer]
    · intro id t ho hwaiting hinterrupt
      obtain ⟨t₀, ho₀, hwaiting₀, -, hkind, hpointer⟩ := hbefore id t ho
      rw [hpointer]
      exact h.parked.inside id t₀ ho₀ (hwaiting₀ hwaiting) (hkind.symm.trans hinterrupt)
  running := fun id hid => h.running id (hcurrent.symm.trans hid)
  loaded := fun id hid => h.loaded id (hcurrent.symm.trans hid)
  kernelStacks := h.kernelStacks.of_live
    (fun id t ho => (hbefore id t ho).imp fun _ ht₀ => ht₀.1) fun _ _ _ => rfl
  ids := fun e he => (h.ids e he).trans_eq hnextId.symm
  unstarted := fun hnone id t ho => by
    obtain ⟨t₀, ho₀, -, hready, hkind, -⟩ := hbefore id t ho
    obtain ⟨hstate₀, hkind₀⟩ := h.unstarted (hcurrent.symm.trans hnone) id t₀ ho₀
    exact ⟨hready hstate₀, hkind.trans hkind₀⟩

/-- Waking tasks leaves their saved contexts alone. -/
theorem Inv.wakes (h : Inv m) {s : Scheduler} (hwakes : Scheduler.Wakes m.scheduler s) :
    Inv { m with scheduler := s } := by
  refine h.unaffected hwakes.inv hwakes.current hwakes.nextTaskId fun id t ho => ?_
  rcases hwakes.outline id with hsame | ⟨t₀, ho₀, hblocked, hwoken⟩
  · exact ⟨t, hsame.symm.trans ho, fun hwaiting => hwaiting, fun hready => hready, rfl, rfl⟩
  · rw [hwoken] at ho
    cases ho
    exact ⟨t₀, ho₀, fun _ => Or.inr hblocked, fun _ => rfl, rfl, rfl⟩

/-- Reaping removes a task that has exited. -/
theorem Inv.reapOne (h : Inv m) : Inv { m with scheduler := m.scheduler.reapOne.2 } := by
  obtain ⟨hcurrent, houtline⟩ := h.scheduler.outline_reapOne
  refine h.unaffected h.scheduler.reapOne hcurrent m.scheduler.nextTaskId_reapOne
    fun id t ho => ⟨t, ?_, fun hwaiting => hwaiting, fun hready => hready, rfl, rfl⟩
  rcases houtline with hsame | ⟨id', t', -, -, hremoved⟩
  · rw [← hsame]
    exact ho
  · rw [hremoved] at ho
    by_cases heq : id = id'
    · subst heq
      rw [Function.update_self] at ho
      cases ho
    · rwa [Function.update_of_ne heq] at ho

/-- A tick is a wake-up of nobody. -/
theorem wakes_tick {s : Scheduler} (h : Scheduler.Inv s) (now : ℕ) :
    Scheduler.Wakes s (s.tick now).2 := by
  obtain ⟨houtline, hcurrent⟩ := h.outline_tick now
  exact ⟨h.tick now, hcurrent, s.nextTaskId_tick now, fun id => Or.inl (congrFun houtline id)⟩

/-- The entry stub pushes a frame on the running task's own stack, where no parked frame is. -/
theorem Inv.push (h : Inv m) (hcurrent : m.scheduler.current = some id) {stackPointer : ℕ}
    (hinside : frameInside (m.contexts id).kernelStack stackPointer = true) (frame : UserFrame) :
    Inv { m with frames := Function.update m.frames stackPointer frame } := by
  obtain ⟨t₀, ht₀, hrunning⟩ := h.scheduler.current_task hcurrent
  have ho₀ := Scheduler.outline_of_task ht₀
  refine { h with parked := ⟨fun id' t ho hwaiting => ?_, h.parked.inside⟩ }
  rw [h.parked.saved id' t ho hwaiting]
  -- the running task does not wait
  have hid : id ≠ id' := by
    rintro rfl
    rw [ho₀] at ho
    cases ho
    change t₀.state = .ready ∨ t₀.state = .blocked at hwaiting
    rw [hrunning] at hwaiting
    rcases hwaiting with hstate | hstate <;> cases hstate
  cases hkind : t.resumeKind with
  | voluntary => simp only [contextOf, hkind]
  | interrupt =>
    have hne : stackPointer ≠ t.interruptStackPointer :=
      h.kernelStacks.frame_ne ho₀ ho hid hinside (h.parked.inside id' t ho hwaiting hkind)
    simp only [contextOf, hkind, Function.update_of_ne hne.symm]

/-- The frame of an interrupt lands on the running task's stack. -/
theorem Inv.frameInside_of_pushes (h : Inv m) (hcurrent : m.scheduler.current = some id)
    {stackPointer : ℕ} (hpushes : m.PushesAt id stackPointer) :
    frameInside (m.contexts id).kernelStack stackPointer = true := by
  rcases hpushes with htop | hinside
  · obtain ⟨t₀, ht₀, -⟩ := h.scheduler.current_task hcurrent
    have hroom := h.kernelStacks.room id _ (Scheduler.outline_of_task ht₀)
    rw [(h.loaded id hcurrent).kernelStackTop] at htop
    simp only [frameInside, Bool.and_eq_true, decide_eq_true_eq]
    omega
  · exact hinside

/-- The contexts once the floating-point registers of the outgoing task are saved. -/
def fpuSaved (m : Machine) (current : ℕ) : ℕ → TaskContext :=
  Function.update m.contexts current { m.contexts current with fpu := m.cpu.fpu }

theorem prepareSwitch_eq (m : Machine) (current next : ℕ) (s' : Scheduler) :
    ({ m with scheduler := s' } : Machine).prepareSwitch (some current) (m.switchTarget next) =
      { m with
        scheduler := s'
        contexts := m.fpuSaved current
        cpu := loadedFor (m.fpuSaved current) next } := by
  -- saving the registers leaves the rest of the next task's context alone
  by_cases heq : next = current
  · subst heq
    simp [prepareSwitch, switchTarget, loadedFor, fpuSaved]
  · simp [prepareSwitch, switchTarget, loadedFor, fpuSaved, Function.update_of_ne heq]

/-- The end of the timer path. -/
theorem timerDispatch_eq (hn : m.scheduler.task next = some t)
    (hrun : m.timerDispatch (some current) next = some m') :
    m' = { m with
      scheduler := consumed m.scheduler next t
      contexts := m.fpuSaved current
      cpu := loadedFor (m.fpuSaved current) next
      log := m.log ++ [.resumed next (contextOf (m.fpuSaved current) m.frames next t)
        (m.fpuSaved current next).fpu] } := by
  have hprepare := prepareSwitch_eq m current next
  unfold timerDispatch at hrun
  simp only [hn] at hrun
  split_ifs at hrun
  cases hkind : t.resumeKind with
  | voluntary =>
    simp only [hkind, Option.some.injEq] at hrun
    rw [← hrun, hprepare m.scheduler]
    simp only [resumeVoluntary, resume, note, contextOf, hkind, consumed, loadedFor]
  | interrupt =>
    simp only [hkind, Option.some.injEq, setResumeKind, hn] at hrun
    rw [← hrun, hprepare]
    simp only [resumeInterrupt, resume, note, contextOf, hkind, consumed, loadedFor]

/-- `preempt` and the switch after it: the running task's frame is on its stack and the task stays
ready, so it may be picked again. -/
theorem Inv.preempt (h : Inv m) (hcurrent : m.scheduler.current = some id) {stackPointer now : ℕ}
    (hinside : frameInside (m.contexts id).kernelStack stackPointer = true) {s : Scheduler}
    (hpreempt : m.scheduler.preempt stackPointer now = some (next, s)) {log : List Event}
    (hlog : log = m.log ++ [.saved id (.interrupt (m.frames stackPointer)) m.cpu.fpu])
    (hrun : ({ m with scheduler := s, log } : Machine).timerDispatch (some id) next = some m') :
    Inv m' := by
  have hs := h.scheduler.preempt hpreempt
  have hnextId := m.scheduler.nextTaskId_preempt now hpreempt
  obtain ⟨hnext, hdispatch⟩ := h.scheduler.dispatches_preempt hpreempt
  obtain ⟨t, ho, hready, houtline⟩ := dispatched_of_moved hdispatch hnext
  obtain ⟨t₀, ht₀, -⟩ := h.scheduler.current_task hcurrent
  rw [hcurrent, Scheduler.editCurrent, Scheduler.outline_of_task ht₀, Option.map_some] at ho houtline
  have hout : s.outline next = some { t with state := .running } := by
    rw [houtline, Function.update_self]
  obtain ⟨tn, htn, hntn⟩ := Scheduler.exists_task_of_outline hout
  obtain ⟨hs', hcurrent', hnextId', houtline'⟩ := consumed_spec hs htn
  subst hlog
  rw [timerDispatch_eq htn hrun]
  dsimp only
  rw [contextOf_running _ _ _ hntn]
  refine h.switched hcurrent hs' (hcurrent'.trans hnext) (hnextId'.trans hnextId) ho hready ?_
    (fun id' hne => Function.update_of_ne hne ..) ?_ (fun _ _ _ _ _ _ => rfl) rfl
    (Or.inr (h.running id hcurrent)) fun _ => ⟨?_, fun _ => ?_⟩
  · rw [houtline', houtline, Function.update_idem, hntn]
  · rw [fpuSaved, Function.update_self]
  · -- the pushed frame is what the record leads to
    simp only [contextOf, Function.comp_apply, Scheduler.requeue, Scheduler.saveFrame, fpuSaved,
      Function.update_self]
  · rw [fpuSaved, Function.update_self]
    exact hinside

/-- `saeos_timer_interrupt_rust`, with or without a switch. -/
theorem Inv.timerInterrupt (h : Inv m) (hcurrent : m.scheduler.current = some id)
    {frame : UserFrame} {stackPointer now ticks : ℕ} {requested : Bool}
    (hpushes : m.PushesAt id stackPointer)
    (hrun : m.timerInterrupt frame stackPointer now ticks requested = some m') : Inv m' := by
  have hinside := h.frameInside_of_pushes hcurrent hpushes
  -- the frame is pushed, sleepers are woken, the tick is counted
  have hexpired := h.scheduler.wakes (.wakeExpired .refl ticks)
  have hwakes := hexpired.trans (wakes_tick hexpired.inv now)
  have h₁ := (h.push hcurrent hinside frame).wakes hwakes
  have hcurrent₁ : ((m.scheduler.wakeExpired ticks).2.tick now).2.current = some id :=
    hwakes.current.trans hcurrent
  unfold Machine.timerInterrupt at hrun
  dsimp only at hrun h₁
  generalize (m.scheduler.wakeExpired ticks).2.tick now = r at hrun h₁ hcurrent₁
  obtain ⟨due, s⟩ := r
  dsimp only at hrun h₁ hcurrent₁
  split_ifs at hrun with hnone hassert
  · cases hrun
    exact h₁
  · split at hrun
    next => cases hrun
    next next s' hpreempt =>
      rw [hcurrent₁] at hrun
      refine h₁.preempt hcurrent₁ hinside hpreempt ?_ hrun
      simp only [Option.map_some, Option.toList_some, Function.update_self]

/-! ## New tasks -/

/-- A task is created with a saved context, on a stack of its own. -/
theorem Inv.created (h : Inv m) {s : Scheduler} {context : TaskContext} {frames' : ℕ → UserFrame}
    {e : Event} (hid : id = m.scheduler.nextTaskId) (hs : Scheduler.Inv s)
    (hcurrent : s.current = m.scheduler.current) (hnextId : s.nextTaskId = id + 1)
    (houtline : s.outline = Function.update m.scheduler.outline id (some t))
    (hready : t.state = .ready) (hfresh : m.FreshStack context.kernelStack)
    (hframes : ∀ p, frameInside context.kernelStack p = false → frames' p = m.frames p)
    (he : e = .saved id (contextOf (Function.update m.contexts id context) frames' id t) context.fpu)
    (hinside : t.resumeKind = .interrupt →
      frameInside context.kernelStack t.interruptStackPointer = true)
    (hunstarted : m.scheduler.current = none → t.resumeKind = .voluntary) :
    Inv {
      scheduler := s
      contexts := Function.update m.contexts id context
      frames := frames'
      cpu := m.cpu
      log := m.log ++ [e] } := by
  have hnew : ∀ id' t', m.scheduler.outline id' = some t' → id' ≠ id := fun id' t' ho' => by
    rw [hid]
    exact (lt_nextTaskId h.scheduler ho').ne
  have htask : e.task = id := by rw [he]; rfl
  obtain ⟨hroom, hapart⟩ := hfresh
  -- the stacks that are in use are apart from the new one
  have hothers : ∀ id' t', m.scheduler.outline id' = some t' →
      (m.contexts id').kernelStack.top ≤ context.kernelStack.base ∨
        context.kernelStack.top ≤ (m.contexts id').kernelStack.base := by
    intro id' t' ho'
    obtain ⟨t₀, ht₀, -⟩ := Scheduler.exists_task_of_outline ho'
    exact hapart id' t₀ ht₀
  exact {
    scheduler := hs
    log := by
      refine h.log.append ?_
      rw [he]
      refine Or.inl (lastEvent_eq_none fun e' he' => ?_)
      rw [hid]
      exact (h.ids e' he').ne
    parked := by
      rw [houtline]
      refine h.parked.update (fun id' hne => Function.update_of_ne hne ..) ?_ htask ?_
      · -- a parked frame is on another stack
        intro id' t' _ ho' hwaiting hkind
        have hin := h.parked.inside id' t' ho' hwaiting hkind
        apply hframes
        have hbytes : 0 < interruptFrameBytes := by decide
        simp only [frameInside, Bool.and_eq_true, Bool.and_eq_false_iff, decide_eq_true_eq,
          decide_eq_false_iff_not] at hin ⊢
        rcases hothers id' t' ho' with hle | hle <;> omega
      · intro t₁ ht₁ _
        cases ht₁
        dsimp only
        rw [Function.update_self]
        exact ⟨he, hinside⟩
    running := fun id' hid' => by
      rw [hcurrent] at hid'
      obtain ⟨t₀, ht₀, -⟩ := h.scheduler.current_task hid'
      have hne := hnew id' _ (Scheduler.outline_of_task ht₀)
      rw [lastEvent_append_of_ne fun heq => hne (heq.symm.trans htask)]
      exact h.running id' hid'
    loaded := fun id' hid' => by
      rw [hcurrent] at hid'
      obtain ⟨t₀, ht₀, -⟩ := h.scheduler.current_task hid'
      dsimp only
      rw [Function.update_of_ne (hnew id' _ (Scheduler.outline_of_task ht₀))]
      exact h.loaded id' hid'
    kernelStacks := by
      rw [houtline]
      exact h.kernelStacks.insert hroom hothers
    ids := fun e' he' => by
      rw [hnextId]
      rcases List.mem_append.mp he' with he' | he'
      · have hlt := h.ids e' he'
        omega
      · rw [List.mem_singleton.mp he', htask]
        exact Nat.lt_succ_self id
    unstarted := fun hnone id' t' ho' => by
      rw [hcurrent] at hnone
      rw [houtline] at ho'
      by_cases heq : id' = id
      · subst heq
        rw [Function.update_self] at ho'
        cases ho'
        exact ⟨hready, hunstarted hnone⟩
      · rw [Function.update_of_ne heq] at ho'
        exact h.unstarted hnone id' t' ho' }

/-- `spawn_kernel_task` starts a task at its entry point. -/
theorem Inv.spawnKernelTask (h : Inv m) {bootstrapIp entry : ℕ} {kernelStack : KernelStack}
    (hfresh : m.FreshStack kernelStack) :
    Inv (m.spawnKernelTask false bootstrapIp entry kernelStack).2 := by
  obtain ⟨houtline, hcurrent⟩ := h.scheduler.outline_spawn
  exact h.created rfl h.scheduler.spawn hcurrent m.scheduler.nextTaskId_spawn houtline rfl hfresh
    (fun _ _ => rfl) (by simp only [contextOf, Function.update_self])
    (fun hkind => absurd hkind (by simp)) fun _ => rfl

/-- `spawn_forked` starts a task from the frame it writes on the new stack. -/
theorem Inv.spawnForked (h : Inv m) {bootstrapIp entry space : ℕ} {kernelStack : KernelStack}
    {frame : UserFrame} (hfresh : m.FreshStack kernelStack)
    (hrun : m.spawnForked bootstrapIp entry kernelStack space frame = some m') : Inv m' := by
  obtain ⟨houtline, hcurrent⟩ := h.scheduler.outline_spawn
  have hs := h.scheduler.spawn
  have hnextId := m.scheduler.nextTaskId_spawn
  have hout : m.scheduler.spawn.2.outline m.scheduler.nextTaskId =
      some { taskId := m.scheduler.nextTaskId, state := .ready } := by
    rw [houtline, Function.update_self]
  obtain ⟨t₀, ht₀, hnt₀⟩ := Scheduler.exists_task_of_outline hout
  have hready₀ : t₀.outline.state = .ready := by rw [hnt₀]
  obtain ⟨slot, hindex, -, -⟩ := hs.slots.slot_of_task ht₀
  -- the frame fits on the new stack
  have hinside : frameInside kernelStack (kernelStack.top - interruptFrameBytes) = true := by
    have hroom := hfresh.1
    simp only [frameInside, Bool.and_eq_true, decide_eq_true_eq]
    omega
  unfold Machine.spawnForked at hrun
  cases hc : m.scheduler.current with
  | none =>
    rw [hc] at hrun
    cases hrun
  | some current =>
    have hspawn : m.scheduler.spawnKernelTask false = m.scheduler.spawn := rfl
    simp only [hc, hspawn] at hrun
    rw [show m.scheduler.spawn.1 = m.scheduler.nextTaskId from rfl, ht₀] at hrun
    cases hrun
    set t₁ : TaskControlBlock := { t₀ with
      resumeKind := .interrupt
      interruptStackPointer := kernelStack.top - interruptFrameBytes } with ht₁
    have houtline₁ : (m.scheduler.spawn.2.setTask m.scheduler.nextTaskId t₁).outline =
        Function.update m.scheduler.outline m.scheduler.nextTaskId (some t₁.outline) := by
      rw [hs.slots.outline_setTask ht₀, houtline, Function.update_idem]
    have hready : t₁.outline.state = .ready := by
      simp only [ht₁, TaskControlBlock.outline] at hready₀ ⊢
      exact hready₀
    refine h.created rfl (hs.setTask ht₀ ⟨rfl, rfl, rfl, rfl⟩) ?_ ?_ houtline₁ hready ?_ ?_ ?_ ?_ ?_
    · rw [Scheduler.setTask_eq hindex]
      exact hcurrent
    · exact (Scheduler.nextTaskId_setTask ..).trans hnextId
    · exact hfresh
    · intro p hp
      have hne : p ≠ kernelStack.top - interruptFrameBytes := by
        intro heq
        rw [heq, hinside] at hp
        cases hp
      dsimp only
      rw [Function.update_of_ne hne]
    · simp only [contextOf, ht₁, TaskControlBlock.outline, Function.update_self]
    · exact fun _ => hinside
    · exact fun hnone => absurd (hc.symm.trans hnone) (by simp)

/-- The machine before the idle task exists. -/
theorem Inv.empty (policy : PolicyKind) :
    Inv ({ scheduler := Scheduler.withPolicy policy } : Machine) where
  scheduler := Scheduler.Inv.empty policy
  log := FaithfulLog.nil
  parked := ⟨(fun _ _ ho => (by cases ho)), (fun _ _ ho => (by cases ho))⟩
  running := fun _ hid => (by cases hid)
  loaded := fun _ hid => (by cases hid)
  kernelStacks := ⟨(fun _ _ ho => (by cases ho)), (fun _ _ _ _ ho => (by cases ho))⟩
  ids := fun _ he => absurd he (by simp)
  unstarted := fun _ _ _ ho => (by cases ho)

/-- The idle task is created like any other task. -/
theorem Inv.initial (h : Initial m) : Inv m := by
  obtain ⟨policy, bootstrapIp, entry, stack, hroom, rfl⟩ := h
  have hfresh : ({ scheduler := Scheduler.withPolicy policy } : Machine).FreshStack stack :=
    ⟨hroom, fun _ _ ht => (by cases ht)⟩
  have houtline : ((Scheduler.withPolicy policy).spawnKernelTask true).2.outline =
      Function.update (Scheduler.withPolicy policy).outline 1
        (some { taskId := 1, state := .ready, isIdle := true }) := by
    funext id
    by_cases heq : id = 1
    · subst heq
      rw [Function.update_self]
      rfl
    · rw [Function.update_of_ne heq]
      simp [Scheduler.outline, Scheduler.task, Scheduler.spawnKernelTask, Scheduler.allocateId,
        Scheduler.insertTask, Scheduler.withPolicy, heq]
  exact (Inv.empty policy).created rfl (Scheduler.Inv.boot policy) rfl rfl houtline rfl hfresh
    (fun _ _ => rfl) (by simp only [contextOf, Function.update_self])
    (fun hkind => absurd hkind (by simp)) fun _ => rfl

/-- `start_first_task`: no task has run, so every task starts from the context it was created
with. -/
theorem Inv.startFirstTask (h : Inv m) (hcurrent : m.scheduler.current = none) {now : ℕ}
    (hrun : m.startFirstTask now = some m') : Inv m' := by
  have hs := h.scheduler.schedule now
  have hnextId := m.scheduler.nextTaskId_schedule now
  have hdispatch := h.scheduler.dispatches_schedule now
  rw [hcurrent, Scheduler.editCurrent] at hdispatch
  unfold Machine.startFirstTask at hrun
  generalize m.scheduler.schedule now = r at *
  obtain ⟨r₁, s⟩ := r
  have hok : r₁ = .ok s.current := hdispatch.ok
  subst hok
  cases hnext : s.current with
  | none =>
    simp only [hnext] at hrun
    cases hrun
  | some next =>
    simp only [hnext, Option.some.injEq] at hrun
    obtain ⟨t, ho, hready, houtline⟩ := dispatched_of_moved hdispatch hnext
    have hkind := (h.unstarted hcurrent next t ho).2
    -- the voluntary context is the one that was saved at creation
    have hcontext : .voluntary (m.contexts next).cpuContext = contextOf m.contexts m.frames next t := by
      simp only [contextOf, hkind]
    have hrunning : ({ t with state := .running } : TaskControlBlock).state = .running := rfl
    obtain ⟨hlog, hparked⟩ := h.parked.dispatch h.log ho hready hrunning
    cases hrun
    simp only [prepareSwitch, resumeVoluntary, resume, note, switchTarget, hcontext]
    exact {
      scheduler := hs
      log := hlog
      parked := by rw [houtline]; exact hparked
      running := fun id hid => by
        rw [hnext] at hid
        cases hid
        exact ⟨_, _, lastEvent_append_self _ _⟩
      loaded := fun id hid => by
        rw [hnext] at hid
        cases hid
        exact ⟨rfl, rfl, rfl⟩
      kernelStacks := h.kernelStacks.of_live (fun id t' ho' => by
        rw [houtline] at ho'
        by_cases heq : id = next
        · exact ⟨t, heq ▸ ho⟩
        · rw [Function.update_of_ne heq] at ho'
          exact ⟨t', ho'⟩) fun _ _ _ => rfl
      ids := fun e he => by
        rw [hnextId]
        rcases List.mem_append.mp he with he | he
        · exact h.ids e he
        · rw [List.mem_singleton.mp he]
          exact lt_nextTaskId h.scheduler ho
      unstarted := fun hnone => absurd (hnext.symm.trans hnone) (by simp) }

/-! ## What the running task does -/

/-- The running task sets its FS base: in its context and on the CPU. -/
theorem Inv.setFsBase (h : Inv m) (hcurrent : m.scheduler.current = some id) (base : ℕ) :
    Inv { m with
      contexts := Function.update m.contexts id { m.contexts id with fsBase := base }
      cpu := { m.cpu with fsBase := base } } := by
  obtain ⟨t₀, ht₀, hrunning⟩ := h.scheduler.current_task hcurrent
  -- only the FS base of the running task changes
  have hfields : ∀ id', (Function.update m.contexts id
      { m.contexts id with fsBase := base } id').cpuContext = (m.contexts id').cpuContext ∧
      (Function.update m.contexts id { m.contexts id with fsBase := base } id').fpu =
        (m.contexts id').fpu ∧
      (Function.update m.contexts id { m.contexts id with fsBase := base } id').kernelStack =
        (m.contexts id').kernelStack := by
    intro id'
    by_cases heq : id' = id
    · subst heq
      rw [Function.update_self]
      exact ⟨rfl, rfl, rfl⟩
    · rw [Function.update_of_ne heq]
      exact ⟨rfl, rfl, rfl⟩
  refine { h with parked := ⟨?_, ?_⟩, loaded := ?_, kernelStacks := ?_ }
  · intro id' t ho hwaiting
    rw [h.parked.saved id' t ho hwaiting]
    dsimp only
    simp only [contextOf, (hfields id').1, (hfields id').2.1]
  · intro id' t ho hwaiting hkind
    dsimp only
    rw [(hfields id').2.2]
    exact h.parked.inside id' t ho hwaiting hkind
  · intro id' hid'
    rw [hcurrent] at hid'
    cases hid'
    dsimp only
    rw [Function.update_self]
    have hloaded := h.loaded id hcurrent
    exact ⟨hloaded.addressSpace, hloaded.kernelStackTop, rfl⟩
  · exact h.kernelStacks.of_live (fun _ t ho => ⟨t, ho⟩) fun id' _ _ => (hfields id').2.2

/-! ## Runs -/

theorem notIdle_of_allowed
    (h : ∃ id, m.scheduler.current = some id ∧ m.scheduler.idle ≠ some id) :
    m.scheduler.NotIdle := by
  obtain ⟨id, hcurrent, hidle⟩ := h
  intro id' hid'
  rw [hcurrent] at hid'
  cases hid'
  exact hidle

/-- Every action keeps the invariant. -/
theorem Inv.step (h : Inv m) {action : Action} (hstep : Step m action m') : Inv m' := by
  obtain ⟨hallowed, hrun⟩ := hstep
  cases action with
  | start now => exact h.startFirstTask hallowed hrun
  | timer frame stackPointer now ticks requested =>
    obtain ⟨id, hcurrent, hpushes⟩ := hallowed
    exact h.timerInterrupt hcurrent hpushes hrun
  | yield continuation now => exact h.yieldNow hrun
  | sleep deadline continuation now =>
    exact h.sleepUntil (notIdle_of_allowed hallowed) hrun
  | wait queue continuation now =>
    exact h.waitEvent (notIdle_of_allowed hallowed) hrun
  | exit status continuation now =>
    exact h.exitCurrent (notIdle_of_allowed hallowed) hrun
  | wakeTask id =>
    cases hrun
    exact h.wakes (h.scheduler.wakes (.wakeTask .refl id))
  | wakeOne queue =>
    cases hrun
    exact h.wakes (h.scheduler.wakes (.wakeOne .refl queue))
  | wakeAll queue =>
    cases hrun
    exact h.wakes (h.scheduler.wakes (.wakeAll .refl queue _ _))
  | cancelWait id queue =>
    cases hrun
    exact h.wakes (h.scheduler.wakes (.cancelWait .refl id queue))
  | spawn bootstrapIp entry kernelStack =>
    cases hrun
    exact h.spawnKernelTask hallowed
  | fork bootstrapIp entry kernelStack space frame => exact h.spawnForked hallowed.2 hrun
  | reap =>
    cases hrun
    exact h.reapOne
  | compute fpu =>
    -- what is in the registers now is saved at the next switch
    cases hrun
    exact { h with loaded := fun id hid => ⟨(h.loaded id hid).1, (h.loaded id hid).2, (h.loaded id hid).3⟩ }
  | setFsBase base =>
    obtain ⟨id, hcurrent⟩ := Option.ne_none_iff_exists'.mp hallowed
    simp only [perform, hcurrent, Option.some.injEq] at hrun
    cases hrun
    exact h.setFsBase hcurrent base

theorem inv_of_reachable (h : Run.Reachable Initial Step m) : Inv m :=
  h.invariant (fun _ => Inv.initial) fun _ _ _ hinv hstep => hinv.step hstep

/-- Every task is resumed from what it saved last and nothing else, and the CPU has loaded what belongs
to the running task. -/
structure ResumesRight (m : Machine) : Prop where
  /-- Each task's events alternate, and what is resumed is what was saved just before. -/
  log : FaithfulLog m.log
  /-- The running task was resumed and has not been switched out since. -/
  running : ∀ id, m.scheduler.current = some id →
    ∃ context fpu, lastEvent m.log id = some (.resumed id context fpu)
  /-- The running task's address space, kernel stack and FS base are loaded. -/
  loaded : ∀ id, m.scheduler.current = some id → Loaded m.cpu (m.contexts id)
  /-- A task that waits would be resumed from its latest switch-out. -/
  waiting : ∀ id t, m.scheduler.task id = some t → Waiting t → lastEvent m.log id =
    some (.saved id (contextOf m.contexts m.frames id t) (m.contexts id).fpu)

/-- From boot on, whatever happens on the CPU. -/
theorem reachable_resumesRight (h : Run.Reachable Initial Step m) : ResumesRight m := by
  have hinv := inv_of_reachable h
  refine ⟨hinv.log, hinv.running, hinv.loaded, fun id t ht hwaiting => ?_⟩
  exact hinv.parked.saved id t.outline (Scheduler.outline_of_task ht) hwaiting

/-- The idle task on a stack of 4096 bytes. -/
def idleOnly : Machine :=
  (({ scheduler := Scheduler.withPolicy .eevdf } : Machine).spawnKernelTask true 0x1000 0x2000
    { base := 0x8000, top := 0x9000 }).2

/-- The idle task runs. -/
def idleRunning : Machine :=
  (idleOnly.startFirstTask 10).getD idleOnly

theorem reachable_idleRunning : Run.Reachable Initial Step idleRunning := by
  have hboot : Run.Reachable Initial Step idleOnly :=
    .start ⟨.eevdf, 0x1000, 0x2000, { base := 0x8000, top := 0x9000 }, by decide, rfl⟩
  have hstart : Step idleOnly (.start 10) idleRunning := ⟨rfl, rfl⟩
  exact hboot.next hstart

/-- The idle task after an interrupt that picks it again. -/
def idlePreempted : Machine :=
  (idleRunning.timerInterrupt { rip := 0x2010 } 0x8f60 20 0 true).getD idleRunning

/-- The idle task is preempted and picked again: it goes on from the frame of that interrupt. -/
theorem reachable_resumesRight_idlePreempted :
    lastEvent idlePreempted.log 1 = some (.resumed 1 (.interrupt { rip := 0x2010 }) FpuState.initial) ∧
      ResumesRight idlePreempted := by
  have hstep : Step idleRunning (.timer { rip := 0x2010 } 0x8f60 20 0 true) idlePreempted :=
    ⟨⟨1, rfl, Or.inl rfl⟩, rfl⟩
  exact ⟨rfl, reachable_resumesRight (reachable_idleRunning.next hstep)⟩

end Machine

end SaeOS.Task
