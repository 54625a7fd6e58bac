import Mathlib.Data.List.Nodup
import Mathlib.Logic.Function.Basic
import SaeOS.Lib.Run

/-!
# Interrupt-safe spinlocks

`IrqSpinMutex` of `sync/spinlock.rs`, in any interleaving of any number of processors, each of which
may be interrupted between any two instructions while its interrupt flag is set. `try_lock` reads
the flag, clears it and exchanges the word of the lock; a guard remembers the flag and restores it
when it is dropped. While the kernel panics, `lock` takes a lock that is held. The results are about
runs without a panic whose contexts drop their guards in reverse order and set the flag themselves
only while they hold none (`Discipline`).
-/

namespace SaeOS.Spinlock

/-- `IrqMutexGuard`. -/
structure Guard (Lock : Type*) where
  lock : Lock
  interruptsEnabled : Bool

/-- Between two instructions of `try_lock` or of the drop of a guard. -/
inductive Phase (Lock : Type*)
  | idle
  /-- The flag was read. -/
  | asked (lock : Lock) (interruptsEnabled : Bool)
  /-- The flag was cleared. -/
  | masked (lock : Lock) (interruptsEnabled : Bool)
  /-- The lock was held. -/
  | failed (interruptsEnabled : Bool)
  /-- The lock was given back. -/
  | dropped (interruptsEnabled : Bool)

/-- A task or an interrupt handler. `wanted` is the flag as its own code has set it. -/
structure Context (Lock : Type*) where
  guards : List (Guard Lock)
  phase : Phase Lock
  wanted : Bool

/-- A processor, with the contexts that are interrupted, the last one first. -/
structure Core (Lock : Type*) where
  interrupts : Bool
  running : Context Lock
  interrupted : List (Context Lock)

structure Machine (Cpu Lock : Type*) where
  locked : Lock → Bool
  core : Cpu → Core Lock
  /-- `fatal::panicking()`. -/
  panicking : Bool := false

/-- What a processor does next. -/
inductive Op (Lock : Type*)
  | ask (lock : Lock)
  | cli
  | compareExchange
  /-- The `store` of `force_lock`. -/
  | forceStore
  | restore
  /-- The guards are numbered from the one that was taken last. -/
  | drop (i : ℕ)
  /-- `cli` and `sti` outside of locks. -/
  | setFlag (enabled : Bool)
  | panic
  | interrupt
  | iret

variable {Cpu Lock : Type*}

/-- The locks that a processor holds. -/
def Core.locks (core : Core Lock) : List Lock :=
  core.running.guards.map Guard.lock

/-- The running context goes on. -/
def Core.enter (core : Core Lock) (interrupts : Bool) (phase : Phase Lock) : Core Lock :=
  ⟨interrupts, { core.running with phase }, core.interrupted⟩

/-- The running context goes on with other guards. -/
def Core.hold (core : Core Lock) (guards : List (Guard Lock)) (phase : Phase Lock) : Core Lock :=
  ⟨core.interrupts, ⟨guards, phase, core.running.wanted⟩, core.interrupted⟩

namespace Machine

variable [DecidableEq Cpu] [DecidableEq Lock]

def setCore (m : Machine Cpu Lock) (cpu : Cpu) (core : Core Lock) : Machine Cpu Lock :=
  { m with core := Function.update m.core cpu core }

def setLocked (m : Machine Cpu Lock) (lock : Lock) (held : Bool) : Machine Cpu Lock :=
  { m with locked := Function.update m.locked lock held }

/-- One instruction of a processor, or an interrupt. -/
def step (m : Machine Cpu Lock) (cpu : Cpu) (op : Op Lock) : Option (Machine Cpu Lock) :=
  let core := m.core cpu
  match op, core.running.phase with
  | .ask lock, .idle =>
    some (m.setCore cpu (core.enter core.interrupts (.asked lock core.interrupts)))
  | .cli, .asked lock enabled => some (m.setCore cpu (core.enter false (.masked lock enabled)))
  | .compareExchange, .masked lock enabled =>
    if m.locked lock then some (m.setCore cpu (core.enter core.interrupts (.failed enabled)))
    else some ((m.setLocked lock true).setCore cpu
      (core.hold (⟨lock, enabled⟩ :: core.running.guards) .idle))
  | .forceStore, .masked lock enabled =>
    if m.panicking then
      some ((m.setLocked lock true).setCore cpu
        (core.hold (⟨lock, enabled⟩ :: core.running.guards) .idle))
    else none
  | .restore, .failed enabled =>
    some (m.setCore cpu (core.enter (core.interrupts || enabled) .idle))
  | .restore, .dropped enabled =>
    some (m.setCore cpu (core.enter (core.interrupts || enabled) .idle))
  | .drop i, .idle =>
    core.running.guards[i]?.map fun guard =>
      (m.setLocked guard.lock false).setCore cpu
        (core.hold (core.running.guards.eraseIdx i) (.dropped guard.interruptsEnabled))
  | .setFlag enabled, .idle =>
    some (m.setCore cpu ⟨enabled, { core.running with wanted := enabled }, core.interrupted⟩)
  | .interrupt, _ =>
    if core.interrupts then
      some (m.setCore cpu ⟨false, ⟨[], .idle, false⟩, core.running :: core.interrupted⟩) else none
  | .iret, .idle =>
    match core.running.guards, core.interrupted with
    | [], context :: interrupted => some (m.setCore cpu ⟨true, context, interrupted⟩)
    | _, _ => none
  | .panic, _ => some { m with panicking := true }
  | _, _ => none

/-- What the kernel's code keeps to until it panics. -/
def Discipline (m : Machine Cpu Lock) (event : Cpu × Op Lock) : Prop :=
  match event.2 with
  | .drop i => i = 0
  | .setFlag _ => (m.core event.1).running.guards = []
  | .panic => False
  | _ => True

end Machine

/-! ## What holds of a processor -/

/-- The flag while a context holds guards. -/
def flagOf (wanted : Bool) : List (Guard Lock) → Bool
  | [] => wanted
  | _ :: _ => false

/-- Each guard remembers the flag from before it. -/
def Saved (wanted : Bool) : List (Guard Lock) → Prop
  | [] => True
  | guard :: guards => guard.interruptsEnabled = flagOf wanted guards ∧ Saved wanted guards

/-- The flag at a point of a context. -/
def Context.Flag (context : Context Lock) (interrupts : Bool) : Prop :=
  match context.phase with
  | .idle => interrupts = flagOf context.wanted context.guards
  | .asked _ enabled => interrupts = flagOf context.wanted context.guards ∧ enabled = interrupts
  | .masked _ enabled | .failed enabled | .dropped enabled =>
    interrupts = false ∧ enabled = flagOf context.wanted context.guards

structure Core.Inv (core : Core Lock) : Prop where
  saved : Saved core.running.wanted core.running.guards
  flag : core.running.Flag core.interrupts
  interrupted : ∀ context ∈ core.interrupted, context.guards = [] ∧ context.Flag true

theorem flagOf_of_ne_nil {wanted : Bool} {guards : List (Guard Lock)} (h : guards ≠ []) :
    flagOf wanted guards = false := by
  cases guards with
  | nil => contradiction
  | cons guard guards => rfl

/-- While the flag is set, a context holds no guard. -/
theorem Context.Flag.guards_eq_nil {context : Context Lock} (h : context.Flag true) :
    context.guards = [] := by
  by_contra hne
  have hflag : flagOf context.wanted context.guards = false := flagOf_of_ne_nil hne
  unfold Context.Flag at h
  split at h
  · rw [hflag] at h
    contradiction
  · rw [hflag] at h
    exact absurd h.1 (by decide)
  all_goals exact absurd h.1 (by decide)

/-- What holds in every interleaving: a lock is held by one guard, of a context that runs. -/
structure Machine.Inv (m : Machine Cpu Lock) : Prop where
  calm : m.panicking = false
  core : ∀ cpu, (m.core cpu).Inv
  held : ∀ lock, m.locked lock = true ↔ ∃ cpu, lock ∈ (m.core cpu).locks
  unique : ∀ {cpu cpu' lock}, lock ∈ (m.core cpu).locks → lock ∈ (m.core cpu').locks → cpu = cpu'
  nodup : ∀ cpu, (m.core cpu).locks.Nodup

/-! ## Steps -/

section Cores

variable [DecidableEq Cpu] {m : Machine Cpu Lock} {cpu : Cpu} {core : Core Lock}

theorem Machine.setCore_core_self : (m.setCore cpu core).core cpu = core :=
  Function.update_self ..

theorem Machine.setCore_core_of_ne {cpu' : Cpu} (h : cpu' ≠ cpu) :
    (m.setCore cpu core).core cpu' = m.core cpu' :=
  Function.update_of_ne h ..

theorem Machine.locks_setCore {cpu' : Cpu} (h : core.locks = (m.core cpu).locks) :
    ((m.setCore cpu core).core cpu').locks = (m.core cpu').locks := by
  by_cases heq : cpu' = cpu
  · subst heq
    rw [setCore_core_self, h]
  · rw [setCore_core_of_ne heq]

theorem Machine.core_setCore (hcore : ∀ cpu, (m.core cpu).Inv) (h : core.Inv) (cpu' : Cpu) :
    ((m.setCore cpu core).core cpu').Inv := by
  by_cases heq : cpu' = cpu
  · subst heq
    rwa [setCore_core_self]
  · rw [setCore_core_of_ne heq]
    exact hcore cpu'

/-- A step that takes and gives back no lock. -/
theorem Machine.Inv.setCore (h : Inv m) (hcore : core.Inv)
    (hlocks : core.locks = (m.core cpu).locks) :
    Inv (m.setCore cpu core) where
  calm := h.calm
  core := core_setCore h.core hcore
  held := fun lock => (h.held lock).trans (exists_congr fun cpu' => by rw [locks_setCore hlocks])
  unique := fun hl hl' => by
    rw [locks_setCore hlocks] at hl hl'
    exact h.unique hl hl'
  nodup := fun cpu' => by
    rw [locks_setCore hlocks]
    exact h.nodup cpu'

end Cores

section Steps

variable [DecidableEq Cpu] [DecidableEq Lock] {m m' : Machine Cpu Lock} {cpu : Cpu}
  {core : Core Lock} {lock : Lock}

/-- The locks of each processor after a lock was taken or given back. -/
theorem Machine.mem_locks_setCore {held : Bool} {cpu' : Cpu} {l : Lock} :
    l ∈ (((m.setLocked lock held).setCore cpu core).core cpu').locks ↔
      cpu' = cpu ∧ l ∈ core.locks ∨ cpu' ≠ cpu ∧ l ∈ (m.core cpu').locks := by
  by_cases heq : cpu' = cpu
  · subst heq
    simp [setCore_core_self]
  · simp [setCore_core_of_ne heq, Machine.setLocked, heq]

theorem Machine.Inv.acquire (h : Inv m) (hfree : m.locked lock = false) (hcore : core.Inv)
    (hlocks : core.locks = lock :: (m.core cpu).locks) :
    Inv ((m.setLocked lock true).setCore cpu core) := by
  have hnone : ∀ cpu', lock ∉ (m.core cpu').locks := fun cpu' hl => by
    rw [(h.held lock).mpr ⟨cpu', hl⟩] at hfree
    contradiction
  refine ⟨h.calm, fun cpu' => core_setCore (m := m.setLocked lock true) h.core hcore cpu',
    fun l => ?_, fun {c c' l} hl hl' => ?_,
    fun cpu' => ?_⟩
  · change Function.update m.locked lock true l = true ↔ _
    by_cases heq : l = lock
    · subst heq
      rw [Function.update_self]
      exact iff_of_true rfl ⟨cpu, mem_locks_setCore.mpr (.inl ⟨rfl, hlocks ▸ List.mem_cons_self⟩)⟩
    · rw [Function.update_of_ne heq, h.held]
      refine exists_congr fun cpu' => ?_
      rw [mem_locks_setCore, hlocks, List.mem_cons]
      by_cases hcpu : cpu' = cpu
      · simp [hcpu, heq]
      · simp [hcpu]
  · rw [mem_locks_setCore, hlocks, List.mem_cons] at hl hl'
    obtain ⟨rfl, rfl | hl⟩ | ⟨hc, hl⟩ := hl
    · obtain ⟨rfl, -⟩ | ⟨-, hl'⟩ := hl'
      · rfl
      · exact absurd hl' (hnone _)
    · obtain ⟨rfl, -⟩ | ⟨-, hl'⟩ := hl'
      · rfl
      · exact h.unique hl hl'
    · obtain ⟨rfl, rfl | hl'⟩ | ⟨-, hl'⟩ := hl'
      · exact absurd hl (hnone _)
      · exact h.unique hl hl'
      · exact h.unique hl hl'
  · by_cases hcpu : cpu' = cpu
    · subst hcpu
      rw [setCore_core_self, hlocks]
      exact List.nodup_cons.mpr ⟨hnone cpu', h.nodup cpu'⟩
    · rw [setCore_core_of_ne hcpu]
      exact h.nodup cpu'

theorem Machine.Inv.giveBack (h : Inv m) (hcore : core.Inv)
    (hlocks : (m.core cpu).locks = lock :: core.locks) :
    Inv ((m.setLocked lock false).setCore cpu core) := by
  have hnodup := List.nodup_cons.mp (hlocks ▸ h.nodup cpu)
  have hsub : ∀ {c l}, l ∈ (((m.setLocked lock false).setCore cpu core).core c).locks →
    l ∈ (m.core c).locks := by
    intro c l hl
    obtain ⟨rfl, hmem⟩ | ⟨-, hmem⟩ := mem_locks_setCore.mp hl
    · exact hlocks ▸ List.mem_cons_of_mem _ hmem
    · exact hmem
  refine ⟨h.calm, fun cpu' => core_setCore (m := m.setLocked lock false) h.core hcore cpu',
    fun l => ?_,
    fun hl hl' => h.unique (hsub hl) (hsub hl'), fun cpu' => ?_⟩
  · change Function.update m.locked lock false l = true ↔ _
    by_cases heq : l = lock
    · subst heq
      rw [Function.update_self]
      refine iff_of_false (by decide) ?_
      rintro ⟨cpu', hl⟩
      obtain ⟨rfl, hmem⟩ | ⟨hc, hmem⟩ := mem_locks_setCore.mp hl
      · exact hnodup.1 hmem
      · exact hc (h.unique hmem (hlocks ▸ List.mem_cons_self))
    · rw [Function.update_of_ne heq, h.held]
      refine exists_congr fun cpu' => ?_
      rw [mem_locks_setCore]
      by_cases hcpu : cpu' = cpu
      · subst hcpu
        simp [hlocks, heq]
      · simp [hcpu]
  · by_cases hcpu : cpu' = cpu
    · subst hcpu
      rw [setCore_core_self]
      exact hnodup.2
    · rw [setCore_core_of_ne hcpu]
      exact h.nodup cpu'

/-- Every instruction of every processor keeps the invariant. -/
theorem Machine.Inv.step {op : Op Lock} (h : Inv m) (hguard : m.Discipline (cpu, op))
    (hstep : m.step cpu op = some m') : Inv m' := by
  obtain ⟨hsaved, hflag, hinterrupted⟩ := h.core cpu
  unfold Machine.step at hstep
  dsimp only at hstep
  split at hstep
  · rename_i lock hphase
    obtain rfl := Option.some.inj hstep
    simp only [Context.Flag, hphase] at hflag
    exact h.setCore ⟨hsaved, ⟨hflag, rfl⟩, hinterrupted⟩ rfl
  · rename_i lock enabled hphase
    obtain rfl := Option.some.inj hstep
    simp only [Context.Flag, hphase] at hflag
    exact h.setCore ⟨hsaved, ⟨rfl, hflag.2.trans hflag.1⟩, hinterrupted⟩ rfl
  · rename_i lock enabled hphase
    simp only [Context.Flag, hphase] at hflag
    split_ifs at hstep with hheld
    · obtain rfl := Option.some.inj hstep
      exact h.setCore ⟨hsaved, hflag, hinterrupted⟩ rfl
    · -- the flag that the new guard remembers is the one from before it
      obtain rfl := Option.some.inj hstep
      exact h.acquire (by simpa using hheld) ⟨⟨hflag.2, hsaved⟩, hflag.1, hinterrupted⟩ rfl
  · rw [h.calm] at hstep
    contradiction
  · rename_i enabled hphase
    obtain rfl := Option.some.inj hstep
    simp only [Context.Flag, hphase] at hflag
    exact h.setCore ⟨hsaved, by rw [hflag.1, hflag.2]; rfl, hinterrupted⟩ rfl
  · rename_i enabled hphase
    obtain rfl := Option.some.inj hstep
    simp only [Context.Flag, hphase] at hflag
    exact h.setCore ⟨hsaved, by rw [hflag.1, hflag.2]; rfl, hinterrupted⟩ rfl
  · rename_i i hphase
    obtain rfl : i = 0 := hguard
    simp only [Context.Flag, hphase] at hflag
    cases hguards : (m.core cpu).running.guards with
    | nil =>
      rw [hguards] at hstep
      contradiction
    | cons guard guards =>
      rw [hguards] at hstep hsaved hflag
      obtain rfl := Option.some.inj hstep
      exact h.giveBack ⟨hsaved.2, ⟨hflag, hsaved.1⟩, hinterrupted⟩
        (congrArg (List.map Guard.lock) hguards)
  · rename_i enabled hphase
    have hnone : (m.core cpu).running.guards = [] := hguard
    obtain rfl := Option.some.inj hstep
    refine h.setCore ⟨?_, ?_, hinterrupted⟩ rfl
    · simp only [hnone]
      trivial
    · simp only [Context.Flag, hphase, hnone]
      rfl
  · split_ifs at hstep with hset
    obtain rfl := Option.some.inj hstep
    rw [hset] at hflag
    refine h.setCore ⟨trivial, rfl,
      fun context hcontext => ?_⟩ (congrArg (List.map Guard.lock) hflag.guards_eq_nil).symm
    obtain rfl | hcontext := List.mem_cons.mp hcontext
    · exact ⟨hflag.guards_eq_nil, hflag⟩
    · exact hinterrupted context hcontext
  · rename_i hphase
    cases hguards : (m.core cpu).running.guards with
    | cons guard guards =>
      rw [hguards] at hstep
      contradiction
    | nil =>
      cases hbelow : (m.core cpu).interrupted with
      | nil =>
        rw [hguards, hbelow] at hstep
        contradiction
      | cons context rest =>
        rw [hguards, hbelow] at hstep
        obtain rfl := Option.some.inj hstep
        obtain ⟨hnone, hgoes⟩ := hinterrupted context (hbelow ▸ List.mem_cons_self)
        refine h.setCore ⟨?_, hgoes,
          fun context' h' => hinterrupted context' (hbelow ▸ List.mem_cons_of_mem _ h')⟩ ?_
        · rw [hnone]
          trivial
        · rw [Core.locks, Core.locks, hnone, hguards]
  · exact hguard.elim
  · contradiction

end Steps

/-! ## Runs -/

/-- No lock is held, and each processor runs one context between two calls. -/
def Machine.Initial (m : Machine Cpu Lock) : Prop :=
  m.panicking = false ∧ (∀ lock, m.locked lock = false) ∧
    ∀ cpu, ∃ enabled, m.core cpu = ⟨enabled, ⟨[], .idle, enabled⟩, []⟩

theorem Machine.Initial.inv {m : Machine Cpu Lock} (h : Initial m) : Inv m := by
  have hlocks : ∀ cpu, (m.core cpu).locks = [] := fun cpu => by
    obtain ⟨enabled, hcore⟩ := h.2.2 cpu
    rw [hcore]
    rfl
  refine ⟨h.1, fun cpu => ?_, fun lock => ?_, fun hl _ => ?_, fun cpu => ?_⟩
  · obtain ⟨enabled, hcore⟩ := h.2.2 cpu
    rw [hcore]
    exact ⟨trivial, rfl, fun context hcontext => by cases hcontext⟩
  · rw [h.2.1 lock]
    refine iff_of_false (by decide) ?_
    rintro ⟨cpu, hl⟩
    rw [hlocks] at hl
    cases hl
  · rw [hlocks] at hl
    cases hl
  · rw [hlocks]
    exact List.nodup_nil

section Runs

variable [DecidableEq Cpu] [DecidableEq Lock] {m : Machine Cpu Lock} {cpu : Cpu}

/-- One instruction of any processor. -/
def Machine.Step (m : Machine Cpu Lock) (event : Cpu × Op Lock) (m' : Machine Cpu Lock) : Prop :=
  m.step event.1 event.2 = some m'

/-- What any interleaving of disciplined processors reaches. -/
def Machine.Reachable : Machine Cpu Lock → Prop :=
  Run.Reachable Initial (Run.Guarded Discipline Step)

theorem Machine.Reachable.next {m' : Machine Cpu Lock} (h : Reachable m) (cpu : Cpu) (op : Op Lock)
    (hguard : m.Discipline (cpu, op)) (hstep : m.step cpu op = some m') : Reachable m' :=
  Run.Reachable.next h (show Run.Guarded Discipline Step m (cpu, op) m' from ⟨hguard, hstep⟩)

theorem Machine.Reachable.inv (h : Reachable m) : Inv m := by
  have hrun : Run.Reachable Initial (Run.Guarded Discipline Step) m := h
  exact hrun.invariant (P := Inv) (fun _ => Initial.inv) fun _ _ _ hm hstep =>
    hm.step hstep.1 hstep.2

/-- **Mutual exclusion.** In every disciplined interleaving a lock that is taken has exactly one
guard. It belongs to the context that its processor runs, with interrupts off: no interrupt handler
ever waits for a context that it has interrupted. -/
theorem Machine.Reachable.held_once (h : Reachable m) (cpu : Cpu) (lock : Lock) :
    (m.locked lock = true ↔ ∃! cpu, lock ∈ (m.core cpu).locks) ∧ (m.core cpu).locks.count lock ≤ 1 ∧
      (lock ∈ (m.core cpu).locks → (m.core cpu).interrupts = false) ∧
      ∀ context ∈ (m.core cpu).interrupted, context.guards = [] := by
  have hinv := h.inv
  refine ⟨(hinv.held lock).trans ⟨fun hheld => ?_, ExistsUnique.exists⟩,
    List.nodup_iff_count_le_one.mp (hinv.nodup cpu) lock,
    fun hl => ?_, fun context hcontext => ((hinv.core cpu).interrupted context hcontext).1⟩
  · obtain ⟨cpu, hl⟩ := hheld
    exact ⟨cpu, hl, fun cpu' hl' => hinv.unique hl' hl⟩
  · by_contra hset
    have hflag := (hinv.core cpu).flag
    rw [Bool.not_eq_false] at hset
    rw [hset] at hflag
    rw [Core.locks, hflag.guards_eq_nil] at hl
    cases hl

/-- Two processors with interrupts on, one of which takes the only lock. -/
theorem Machine.reachable_taken : ∃ m : Machine Bool Unit, Reachable m ∧ m.locked () = true ∧
    (m.core false).running.phase = .idle := by
  have hstart : Reachable (⟨fun _ => false, fun _ => ⟨true, ⟨[], .idle, true⟩, []⟩, false⟩ :
      Machine Bool Unit) :=
    .start ⟨rfl, fun _ => rfl, fun _ => ⟨true, rfl⟩⟩
  exact ⟨_, ((hstart.next false (.ask ()) trivial rfl).next false .cli trivial rfl).next false
    .compareExchange trivial rfl, rfl, rfl⟩

theorem Machine.held_once_taken :
    ∃ m : Machine Bool Unit, m.locked () = true ∧ ∃! cpu, () ∈ (m.core cpu).locks := by
  obtain ⟨m, hm, hheld, -⟩ := reachable_taken
  exact ⟨m, hheld, (hm.held_once false ()).1.mp hheld⟩

/-- **Guards restore the interrupt flag.** Between two calls, in every interleaving and however deep
the guards of a context were nested, its flag is off while it holds one and otherwise as its own
code has last set it. -/
theorem Machine.Reachable.flag_restored (h : Reachable m)
    (hidle : (m.core cpu).running.phase = .idle) :
    (m.core cpu).interrupts =
      ((m.core cpu).running.guards.isEmpty && (m.core cpu).running.wanted) := by
  have hflag := (h.inv.core cpu).flag
  simp only [Context.Flag, hidle] at hflag
  rw [hflag]
  cases (m.core cpu).running.guards with
  | nil => rfl
  | cons guard guards => rfl

theorem Machine.flag_restored_taken : ∃ m : Machine Bool Unit, m.locked () = true ∧
    (m.core false).interrupts =
      ((m.core false).running.guards.isEmpty && (m.core false).running.wanted) := by
  obtain ⟨m, hm, hheld, hidle⟩ := reachable_taken
  exact ⟨m, hheld, hm.flag_restored hidle⟩

end Runs

end SaeOS.Spinlock
