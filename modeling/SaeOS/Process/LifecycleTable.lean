import SaeOS.Process.Lifecycle

/-!
# Children as the waiting protocol sees them

Whether a parent can go on depends on two relations: which processes are its children, and which of
them have finished. `ready` is characterised by them, and for each operation on the table that a
step of the protocol makes, the lemmas here say which of a process's children stay, which become
finished, and which records keep their thread and their status.
-/

namespace SaeOS.Process

/-- `child` is a child of `parent`. -/
def ChildOf (t : ProcessTable) (parent child : ℕ) : Prop :=
  ∃ r, t.process child = some r ∧ r.parent = some parent

/-- `child` is a child of `parent` that can be collected. -/
def FinishedChild (t : ProcessTable) (parent child : ℕ) : Prop :=
  ∃ r, t.process child = some r ∧ r.parent = some parent ∧ r.isFinished = true

/-- The child is one that the caller waits for. -/
def Matches (target : Option ℕ) (child : ℕ) : Prop :=
  ∀ c, target = some c → c = child

/-- The caller has a child it may wait for. -/
def HasSuchChild (t : ProcessTable) (parent : ℕ) (target : Option ℕ) : Prop :=
  ∃ child, Matches target child ∧ ChildOf t parent child

/-- A child the caller waits for can be collected. -/
def Collectible (t : ProcessTable) (parent : ℕ) (target : Option ℕ) : Prop :=
  ∃ child, Matches target child ∧ FinishedChild t parent child

variable {t t' : ProcessTable} {parent child p id : ℕ} {target : Option ℕ}
  {r : ProcessControlBlock}

theorem FinishedChild.childOf (h : FinishedChild t parent child) : ChildOf t parent child := by
  obtain ⟨r, hr, hparent, -⟩ := h
  exact ⟨r, hr, hparent⟩

theorem childOf_iff (t : ProcessTable) (parent child : ℕ) :
    ChildOf t parent child ↔ parentOf t.process child = some parent :=
  Option.bind_eq_some_iff.symm

theorem matches_some_iff (c child : ℕ) : Matches (some c) child ↔ child = c := by
  constructor
  · intro h
    exact (h c rfl).symm
  · rintro rfl c' h
    exact (Option.some.inj h).symm

theorem matches_none (child : ℕ) : Matches none child :=
  fun _ h => absurd h (by simp)

/-! ## The check -/

/-- The children of a live process are those in its list. -/
theorem mem_children_iff (h : Family t.process) (hr : t.process parent = some r) (child : ℕ) :
    child ∈ r.children ↔ ChildOf t parent child := by
  rw [h.children_iff parent r child hr, childOf_iff]

theorem hasChildren_iff (h : Family t.process) (parent : ℕ) :
    t.hasChildren parent = true ↔ ∃ child, ChildOf t parent child := by
  cases hr : t.process parent with
  | none =>
    simp only [ProcessTable.hasChildren, hr, Option.any_none, Bool.false_eq_true, false_iff]
    rintro ⟨child, hchild⟩
    obtain ⟨r, hr'⟩ := h.parent_live child parent ((childOf_iff t parent child).mp hchild)
    rw [hr] at hr'
    cases hr'
  | some r =>
    simp only [ProcessTable.hasChildren, hr, Option.any_some, Bool.not_eq_true',
      List.isEmpty_eq_false_iff_exists_mem, mem_children_iff h hr]

/-- `exited_child` finds a finished child. -/
theorem exitedChild_some (h : Family t.process) (hfound : t.exitedChild parent = some child) :
    FinishedChild t parent child := by
  obtain ⟨r, hr, hfind⟩ := Option.bind_eq_some_iff.mp hfound
  obtain ⟨rc, hrc, hparent⟩ := (mem_children_iff h hr child).mp (List.mem_of_find?_eq_some hfind)
  have hfinished := List.find?_some hfind
  rw [hrc, Option.any_some] at hfinished
  exact ⟨rc, hrc, hparent, hfinished⟩

/-- `exited_child` finds nothing exactly if no child has finished. -/
theorem exitedChild_none (h : Family t.process) (hnone : t.exitedChild parent = none) (child : ℕ) :
    ¬FinishedChild t parent child := by
  rintro ⟨rc, hrc, hparent, hfinished⟩
  obtain ⟨r, hr⟩ := h.parent_live child parent ((parentOf_of_some hrc).trans hparent)
  have hmem := (mem_children_iff h hr child).mpr ⟨rc, hrc, hparent⟩
  simp only [ProcessTable.exitedChild, hr, Option.bind_some, List.find?_eq_none] at hnone
  have hnot := hnone child hmem
  rw [hrc, Option.any_some, hfinished] at hnot
  exact hnot rfl

theorem ready_some (h : Family t.process) (hready : ready t parent target = .ok (some child)) :
    Matches target child ∧ FinishedChild t parent child := by
  cases target with
  | none =>
    simp only [ready] at hready
    split_ifs at hready
    exact ⟨matches_none child, exitedChild_some h (Except.ok.inj hready)⟩
  | some c =>
    simp only [ready] at hready
    split at hready
    · cases hready
    · next r hr =>
      split_ifs at hready with hparent hfinished
      · cases hready
        exact ⟨(matches_some_iff _ _).mpr rfl, r, hr, not_not.mp hparent, hfinished⟩
      · cases hready

theorem ready_none (h : Family t.process) (hready : ready t parent target = .ok none) :
    HasSuchChild t parent target ∧ ¬Collectible t parent target := by
  cases target with
  | none =>
    simp only [ready] at hready
    split_ifs at hready with hhas
    have hsome := (hasChildren_iff h parent).mp (by simpa using hhas)
    obtain ⟨child, hchild⟩ := hsome
    refine ⟨⟨child, matches_none child, hchild⟩, ?_⟩
    rintro ⟨c, -, hc⟩
    exact exitedChild_none h (Except.ok.inj hready) c hc
  | some c =>
    simp only [ready] at hready
    split at hready
    · cases hready
    · next r hr =>
      split_ifs at hready with hparent hfinished
      · cases hready
      · refine ⟨⟨c, (matches_some_iff _ _).mpr rfl, r, hr, not_not.mp hparent⟩, ?_⟩
        rintro ⟨c', hc', r', hr', -, hfin⟩
        rw [(matches_some_iff _ _).mp hc', hr] at hr'
        cases hr'
        exact hfinished hfin

theorem ready_error (h : Family t.process) {e : WaitError}
    (hready : ready t parent target = .error e) : ¬HasSuchChild t parent target := by
  rintro ⟨child, hmatch, hchild⟩
  cases target with
  | none =>
    have hhas := (hasChildren_iff h parent).mpr ⟨child, hchild⟩
    simp [ready, hhas] at hready
  | some c =>
    obtain rfl := (matches_some_iff _ _).mp hmatch
    obtain ⟨r, hr, hparent⟩ := hchild
    simp [ready, hr, hparent] at hready

/-- A collectible child makes the check succeed. -/
theorem ready_of_collectible (h : Family t.process) (hc : Collectible t parent target) :
    ∃ child, ready t parent target = .ok (some child) := by
  obtain ⟨c, hmatch, hfinished⟩ := hc
  cases hready : ready t parent target with
  | error e => exact absurd ⟨c, hmatch, hfinished.childOf⟩ (ready_error h hready)
  | ok found =>
    cases found with
    | none => exact absurd ⟨c, hmatch, hfinished⟩ (ready_none h hready).2
    | some child => exact ⟨child, rfl⟩

/-! ## What an operation keeps for a process -/

/-- A process that has a thread keeps it, with its address space and its status. -/
def SameRecord (t t' : ProcessTable) (p : ℕ) : Prop :=
  ∀ r, t.process p = some r → r.threads ≠ [] → ∃ r', t'.process p = some r' ∧
    r'.threads = r.threads ∧ r'.addressSpace = r.addressSpace ∧ r'.exitStatus = r.exitStatus

/-- What the steps of others leave a process `p`: its record as long as it has a thread, and its
children, the finished ones among them. -/
structure Keeps (t t' : ProcessTable) (p : ℕ) : Prop where
  record : SameRecord t t' p
  child : ∀ c, ChildOf t p c → ChildOf t' p c
  finished : ∀ c, FinishedChild t p c → FinishedChild t' p c

/-- No child of `p` becomes collectible. -/
def NoneFinishes (t t' : ProcessTable) (p : ℕ) : Prop :=
  ∀ c, FinishedChild t' p c → FinishedChild t p c

/-- Records come with the waiters and the status they had, or are new. -/
def Inherits (t t' : ProcessTable) : Prop :=
  ∀ c r', t'.process c = some r' →
    (∃ r, t.process c = some r ∧ r'.childWaiters = r.childWaiters ∧ r'.exitStatus = r.exitStatus) ∨
      r'.childWaiters = [] ∧ r'.exitStatus = none

/-- Nobody is registered as a waiter of a child. -/
def NoWaiters (t : ProcessTable) : Prop :=
  ∀ p r, t.process p = some r → r.childWaiters = []

theorem Keeps.refl (t : ProcessTable) (p : ℕ) : Keeps t t p :=
  ⟨fun r hr _ => ⟨r, hr, rfl, rfl, rfl⟩, fun _ h => h, fun _ h => h⟩

theorem SameRecord.trans {t₁ t₂ t₃ : ProcessTable} (h₁ : SameRecord t₁ t₂ p)
    (h₂ : SameRecord t₂ t₃ p) : SameRecord t₁ t₃ p := by
  intro r hr hthreads
  obtain ⟨r', hr', hth, hsp, hst⟩ := h₁ r hr hthreads
  obtain ⟨r'', hr'', hth', hsp', hst'⟩ := h₂ r' hr' (hth ▸ hthreads)
  exact ⟨r'', hr'', hth'.trans hth, hsp'.trans hsp, hst'.trans hst⟩

theorem Keeps.trans {t₁ t₂ t₃ : ProcessTable} (h₁ : Keeps t₁ t₂ p) (h₂ : Keeps t₂ t₃ p) :
    Keeps t₁ t₃ p :=
  ⟨h₁.record.trans h₂.record, fun c h => h₂.child c (h₁.child c h),
    fun c h => h₂.finished c (h₁.finished c h)⟩

theorem NoneFinishes.trans {t₁ t₂ t₃ : ProcessTable} (h₁ : NoneFinishes t₁ t₂ p)
    (h₂ : NoneFinishes t₂ t₃ p) : NoneFinishes t₁ t₃ p :=
  fun c h => h₁ c (h₂ c h)

theorem Inherits.refl (t : ProcessTable) : Inherits t t :=
  fun _ r hr => Or.inl ⟨r, hr, rfl, rfl⟩

theorem Inherits.trans {t₁ t₂ t₃ : ProcessTable} (h₁ : Inherits t₁ t₂) (h₂ : Inherits t₂ t₃) :
    Inherits t₁ t₃ := by
  intro c r₃ hr₃
  rcases h₂ c r₃ hr₃ with ⟨r₂, hr₂, hwaiters, hstatus⟩ | hnew
  · rcases h₁ c r₂ hr₂ with ⟨r₁, hr₁, hwaiters', hstatus'⟩ | ⟨hwaiters', hstatus'⟩
    · exact Or.inl ⟨r₁, hr₁, hwaiters.trans hwaiters', hstatus.trans hstatus'⟩
    · exact Or.inr ⟨hwaiters.trans hwaiters', hstatus.trans hstatus'⟩
  · exact Or.inr hnew

theorem NoWaiters.inherits (h : NoWaiters t) (hinherits : Inherits t t') : NoWaiters t' := by
  intro p r' hr'
  rcases hinherits p r' hr' with ⟨r, hr, hwaiters, -⟩ | ⟨hwaiters, -⟩
  · exact hwaiters.trans (h p r hr)
  · exact hwaiters

/-- A status found later was recorded before. -/
theorem Inherits.status {status : ℤ} (h : Inherits t t') {r' : ProcessControlBlock}
    (hr' : t'.process p = some r') (hstatus : r'.exitStatus = some status) :
    ∃ r, t.process p = some r ∧ r.exitStatus = some status := by
  rcases h p r' hr' with ⟨r, hr, -, heq⟩ | ⟨-, hnone⟩
  · exact ⟨r, hr, heq.symm.trans hstatus⟩
  · rw [hnone] at hstatus
    cases hstatus

theorem HasSuchChild.keeps (h : HasSuchChild t p target) (hkeep : Keeps t t' p) :
    HasSuchChild t' p target := by
  obtain ⟨c, hmatch, hchild⟩ := h
  exact ⟨c, hmatch, hkeep.child c hchild⟩

theorem Collectible.keeps (h : Collectible t p target) (hkeep : Keeps t t' p) :
    Collectible t' p target := by
  obtain ⟨c, hmatch, hchild⟩ := h
  exact ⟨c, hmatch, hkeep.finished c hchild⟩

theorem Collectible.of_noneFinishes (h : Collectible t' p target) (hnone : NoneFinishes t t' p) :
    Collectible t p target := by
  obtain ⟨c, hmatch, hchild⟩ := h
  exact ⟨c, hmatch, hnone c hchild⟩

/-- Equal lookups keep everything. -/
theorem keeps_of_process_eq (h : t'.process = t.process) (p : ℕ) :
    Keeps t t' p ∧ NoneFinishes t t' p := by
  refine ⟨⟨fun r hr _ => ⟨r, by rw [h, hr], rfl, rfl, rfl⟩, fun c hc => ?_, fun c hc => ?_⟩,
    fun c hc => ?_⟩
  · rwa [ChildOf, h]
  · rwa [FinishedChild, h]
  · rwa [FinishedChild, h] at hc

/-! ## The operations -/

/-- Reaping removes a process that is nobody's child and has no thread. -/
theorem keeps_reapIfEmpty (hids : t.IdsOk) (hfamily : Family t.process) (q p : ℕ) :
    Keeps t (t.reapIfEmpty q).2 p ∧ NoneFinishes t (t.reapIfEmpty q).2 p := by
  rcases ProcessTable.reapIfEmpty_cases hids hfamily q with
    ⟨-, heq⟩ | ⟨r, hr, hcan, -, -, -, -, hprocess⟩
  · rw [heq]
    exact keeps_of_process_eq rfl p
  · obtain ⟨hparent, hthreads⟩ : r.parent = none ∧ r.threads = [] := by
      simp only [ProcessControlBlock.canReap, Bool.and_eq_true, Option.isNone_iff_eq_none,
        List.isEmpty_iff] at hcan
      exact ⟨hcan.1.1.1.1, hcan.1.1.1.2⟩
    have hother : ∀ c, c ≠ q → (t.reapIfEmpty q).2.process c = t.process c := by
      intro c hc
      rw [hprocess, Function.update_of_ne hc]
    have hchild : ∀ c r', t.process c = some r' → r'.parent = some p → c ≠ q := by
      rintro c r' hr' hp rfl
      rw [hr] at hr'
      cases hr'
      rw [hparent] at hp
      cases hp
    refine ⟨⟨fun r' hr' hne => ?_, fun c hc => ?_, fun c hc => ?_⟩, fun c hc => ?_⟩
    · have hpq : p ≠ q := by
        rintro rfl
        rw [hr] at hr'
        cases hr'
        exact hne hthreads
      exact ⟨r', by rw [hother p hpq, hr'], rfl, rfl, rfl⟩
    · obtain ⟨r', hr', hp⟩ := hc
      exact ⟨r', by rw [hother c (hchild c r' hr' hp), hr'], hp⟩
    · obtain ⟨r', hr', hp, hfin⟩ := hc
      exact ⟨r', by rw [hother c (hchild c r' hr' hp), hr'], hp, hfin⟩
    · obtain ⟨r', hr', hp, hfin⟩ := hc
      have hcq : c ≠ q := by
        rintro rfl
        rw [hprocess, Function.update_self] at hr'
        cases hr'
      exact ⟨r', by rw [← hother c hcq, hr'], hp, hfin⟩

theorem inherits_reapIfEmpty (hids : t.IdsOk) (hfamily : Family t.process) (q : ℕ) :
    Inherits t (t.reapIfEmpty q).2 := by
  rcases ProcessTable.reapIfEmpty_cases hids hfamily q with
    ⟨-, heq⟩ | ⟨r, hr, -, -, -, -, -, hprocess⟩
  · rw [heq]
    exact Inherits.refl t
  · intro p r' hr'
    rw [hprocess] at hr'
    by_cases hp : p = q
    · rw [hp, Function.update_self] at hr'
      cases hr'
    · rw [Function.update_of_ne hp] at hr'
      exact Or.inl ⟨r', hr', rfl, rfl⟩

/-- Rewriting the record of one process: others keep theirs, and links stay. -/
theorem keeps_of_update {q : ℕ} {r r' : ProcessControlBlock} (hr : t.process q = some r)
    (hprocess : t'.process = Function.update t.process q (some r')) (hparent : r'.parent = r.parent)
    (hfinished : r.isFinished = true → r'.isFinished = true) (hp : p ≠ q) : Keeps t t' p := by
  refine ⟨fun r₁ hr₁ _ => ⟨r₁, by rw [hprocess, Function.update_of_ne hp, hr₁], rfl, rfl, rfl⟩,
    fun c hc => ?_, fun c hc => ?_⟩
  · obtain ⟨r₁, hr₁, hpar⟩ := hc
    by_cases hcq : c = q
    · subst hcq
      rw [hr] at hr₁
      cases hr₁
      exact ⟨r', by rw [hprocess, Function.update_self], hparent.trans hpar⟩
    · exact ⟨r₁, by rw [hprocess, Function.update_of_ne hcq, hr₁], hpar⟩
  · obtain ⟨r₁, hr₁, hpar, hfin⟩ := hc
    by_cases hcq : c = q
    · subst hcq
      rw [hr] at hr₁
      cases hr₁
      exact ⟨r', by rw [hprocess, Function.update_self], hparent.trans hpar, hfinished hfin⟩
    · exact ⟨r₁, by rw [hprocess, Function.update_of_ne hcq, hr₁], hpar, hfin⟩

theorem inherits_of_update {q : ℕ} {r' : ProcessControlBlock}
    (hprocess : t'.process = Function.update t.process q (some r'))
    (hr' : (∃ r, t.process q = some r ∧ r'.childWaiters = r.childWaiters ∧
      r'.exitStatus = r.exitStatus) ∨ r'.childWaiters = [] ∧ r'.exitStatus = none) :
    Inherits t t' := by
  intro p r₁ hr₁
  rw [hprocess] at hr₁
  by_cases hp : p = q
  · rw [hp, Function.update_self] at hr₁
    cases hr₁
    rw [hp]
    exact hr'
  · rw [Function.update_of_ne hp] at hr₁
    exact Or.inl ⟨r₁, hr₁, rfl, rfl⟩

/-- Handing the children of `q` to init: only init gains children, and only `q` loses some. -/
theorem keeps_reparented {q : ℕ} (hfamily : Family t.process) (hr : t.process q = some r)
    (hprocess : t'.process = Family.reparented t.process q r.children) (hp : p ≠ q) :
    Keeps t t' p ∧ (p ≠ initPid → NoneFinishes t t' p) := by
  have hparents : ∀ c, parentOf t'.process c =
      if c ∈ r.children then some initPid else parentOf t.process c := by
    intro c
    rw [hprocess]
    exact hfamily.parentOf_reparented hr c
  -- a child of another process is not handed over
  have hstay : ∀ c, parentOf t.process c = some p → c ∉ r.children := by
    intro c hc hmem
    rw [hfamily.children_iff q r c hr, hc] at hmem
    exact hp (Option.some.inj hmem)
  have hrecord : ∀ c r₁, t.process c = some r₁ → ∃ r₂, t'.process c = some r₂ ∧
      r₂.threads = r₁.threads ∧ r₂.addressSpace = r₁.addressSpace ∧
      r₂.exitStatus = r₁.exitStatus ∧ r₂.isFinished = r₁.isFinished := by
    intro c r₁ hr₁
    rw [hprocess, Family.reparented, hr₁, Option.map_some]
    exact ⟨_, rfl, rfl, rfl, rfl, rfl⟩
  refine ⟨⟨fun r₁ hr₁ _ => ?_, fun c hc => ?_, fun c hc => ?_⟩, fun hinit c hc => ?_⟩
  · obtain ⟨r₂, hr₂, hth, hsp, hst, -⟩ := hrecord p r₁ hr₁
    exact ⟨r₂, hr₂, hth, hsp, hst⟩
  · rw [childOf_iff] at hc ⊢
    rw [hparents, if_neg (hstay c hc), hc]
  · obtain ⟨r₁, hr₁, hpar, hfin⟩ := hc
    have hc : parentOf t.process c = some p := (parentOf_of_some hr₁).trans hpar
    obtain ⟨r₂, hr₂, -, -, -, hfin'⟩ := hrecord c r₁ hr₁
    have hpar' := hparents c
    rw [if_neg (hstay c hc), hc, parentOf_of_some hr₂] at hpar'
    exact ⟨r₂, hr₂, hpar', hfin'.trans hfin⟩
  · obtain ⟨r₂, hr₂, hpar, hfin⟩ := hc
    have hpar' := hparents c
    rw [parentOf_of_some hr₂, hpar] at hpar'
    split_ifs at hpar' with hmem
    · exact absurd (Option.some.inj hpar') hinit
    · have hmap := hr₂
      rw [hprocess] at hmap
      obtain ⟨r₁, hold, rfl⟩ := Option.map_eq_some_iff.mp hmap
      exact ⟨r₁, hold, (parentOf_of_some hold).symm.trans hpar'.symm, hfin⟩

/-- A new child is not finished, and nobody else's. -/
theorem keeps_createChild (hids : t.IdsOk) (hp : t.process parent = some r) (space : Option ℕ)
    (thread p : ℕ) :
    Keeps t (t.createChild parent space thread).2 p ∧
      NoneFinishes t (t.createChild parent space thread).2 p ∧
      Inherits t (t.createChild parent space thread).2 := by
  obtain ⟨t', heq, -, -, -, hprocess⟩ := hids.createChild hp space thread
  have hfresh := hids.next_fresh
  have hne : parent ≠ t.nextId := (hids.lt_of_process hp).ne
  rw [Function.update_idem] at hprocess
  rw [heq]
  -- every old record stays, but for the list of children of the parent
  have hrecord : ∀ c r₁, t.process c = some r₁ → ∃ r₂, t'.process c = some r₂ ∧
      r₂.parent = r₁.parent ∧ r₂.threads = r₁.threads ∧ r₂.addressSpace = r₁.addressSpace ∧
      r₂.exitStatus = r₁.exitStatus := by
    intro c r₁ hr₁
    have hc : c ≠ t.nextId := (hids.lt_of_process hr₁).ne
    by_cases hcp : c = parent
    · subst hcp
      rw [hp] at hr₁
      cases hr₁
      exact ⟨_, (congrFun hprocess c).trans (Function.update_self ..), rfl, rfl, rfl, rfl⟩
    · exact ⟨r₁, by rw [hprocess, Function.update_of_ne hcp, Function.update_of_ne hc, hr₁],
        rfl, rfl, rfl, rfl⟩
  have hback : ∀ c r₂, t'.process c = some r₂ →
      (∃ r₁, t.process c = some r₁ ∧ r₂.parent = r₁.parent ∧ r₂.threads = r₁.threads ∧
        r₂.exitStatus = r₁.exitStatus ∧ r₂.childWaiters = r₁.childWaiters) ∨
      c = t.nextId ∧ r₂ = .new t.nextId (some parent) space thread := by
    intro c r₂ hr₂
    rw [hprocess] at hr₂
    by_cases hcp : c = parent
    · subst hcp
      rw [Function.update_self] at hr₂
      cases hr₂
      exact Or.inl ⟨r, hp, rfl, rfl, rfl, rfl⟩
    · rw [Function.update_of_ne hcp] at hr₂
      by_cases hc : c = t.nextId
      · rw [hc, Function.update_self] at hr₂
        exact Or.inr ⟨hc, (Option.some.inj hr₂).symm⟩
      · rw [Function.update_of_ne hc] at hr₂
        exact Or.inl ⟨r₂, hr₂, rfl, rfl, rfl, rfl⟩
  refine ⟨⟨fun r₁ hr₁ _ => ?_, fun c hc => ?_, fun c hc => ?_⟩, fun c hc => ?_, fun c r₂ hr₂ => ?_⟩
  · obtain ⟨r₂, hr₂, -, hthreads, hspace, hstatus⟩ := hrecord p r₁ hr₁
    exact ⟨r₂, hr₂, hthreads, hspace, hstatus⟩
  · obtain ⟨r₁, hr₁, hpar⟩ := hc
    obtain ⟨r₂, hr₂, hpar', -⟩ := hrecord c r₁ hr₁
    exact ⟨r₂, hr₂, hpar'.trans hpar⟩
  · obtain ⟨r₁, hr₁, hpar, hfin⟩ := hc
    obtain ⟨r₂, hr₂, hpar', hthreads, -, hstatus⟩ := hrecord c r₁ hr₁
    refine ⟨r₂, hr₂, hpar'.trans hpar, ?_⟩
    rw [ProcessControlBlock.isFinished, hthreads, hstatus]
    exact hfin
  · obtain ⟨r₂, hr₂, hpar, hfin⟩ := hc
    rcases hback c r₂ hr₂ with ⟨r₁, hr₁, hpar', hthreads, hstatus, -⟩ | ⟨-, rfl⟩
    · refine ⟨r₁, hr₁, hpar'.symm.trans hpar, ?_⟩
      rw [ProcessControlBlock.isFinished, ← hthreads, ← hstatus]
      exact hfin
    · cases hfin
  · rcases hback c r₂ hr₂ with ⟨r₁, hr₁, -, -, hstatus, hwaiters⟩ | ⟨-, rfl⟩
    · exact Or.inl ⟨r₁, hr₁, hwaiters, hstatus⟩
    · exact Or.inr ⟨rfl, rfl⟩

/-- Collecting a child takes it from its parent and leaves everybody else alone. -/
theorem keeps_disown {rp rc : ProcessControlBlock} (hfamily : Family t.process)
    (hp : t.process parent = some rp) (hc : t.process child = some rc)
    (hparent : rc.parent = some parent) (heq : t.disown parent child = (.ok (), t')) :
    (∀ p, p ≠ parent → Keeps t t' p) ∧ SameRecord t t' parent ∧ (∀ p, NoneFinishes t t' p) ∧
      Inherits t t' := by
  have hlink : parentOf t.process child = some parent := (parentOf_of_some hc).trans hparent
  have hne : child ≠ parent := (hfamily.parent_lt child parent hlink).ne'
  obtain ⟨t₁, heq', -, -, -, hprocess⟩ := ProcessTable.disown_eq hp hc hne
  obtain rfl : t' = t₁ := congrArg Prod.snd (heq.symm.trans heq')
  -- records keep all but the links
  have hrecord : ∀ c r₁, t.process c = some r₁ → ∃ r₂, t'.process c = some r₂ ∧
      r₂.parent = (if c = child then none else r₁.parent) ∧ r₂.threads = r₁.threads ∧
      r₂.addressSpace = r₁.addressSpace ∧ r₂.exitStatus = r₁.exitStatus ∧
      r₂.childWaiters = r₁.childWaiters := by
    intro c r₁ hr₁
    by_cases hcc : c = child
    · subst hcc
      rw [hc] at hr₁
      cases hr₁
      rw [if_pos rfl]
      exact ⟨_, (congrFun hprocess c).trans (Function.update_self ..), rfl, rfl, rfl, rfl, rfl⟩
    · rw [if_neg hcc]
      by_cases hcp : c = parent
      · subst hcp
        rw [hp] at hr₁
        cases hr₁
        have hlookup := congrFun hprocess c
        rw [Function.update_of_ne hcc, Function.update_self] at hlookup
        exact ⟨_, hlookup, rfl, rfl, rfl, rfl, rfl⟩
      · exact ⟨r₁, by rw [hprocess, Function.update_of_ne hcc, Function.update_of_ne hcp, hr₁],
          rfl, rfl, rfl, rfl, rfl⟩
  have hback : ∀ c r₂, t'.process c = some r₂ → ∃ r₁, t.process c = some r₁ := by
    intro c r₂ hr₂
    by_cases hcc : c = child
    · exact ⟨rc, hcc ▸ hc⟩
    · by_cases hcp : c = parent
      · exact ⟨rp, hcp ▸ hp⟩
      · rw [hprocess, Function.update_of_ne hcc, Function.update_of_ne hcp] at hr₂
        exact ⟨r₂, hr₂⟩
  have hsame : ∀ p, SameRecord t t' p := by
    intro p r₁ hr₁ _
    obtain ⟨r₂, hr₂, -, hthreads, hspace, hstatus, -⟩ := hrecord p r₁ hr₁
    exact ⟨r₂, hr₂, hthreads, hspace, hstatus⟩
  -- the child is only its parent's
  have hother : ∀ p, p ≠ parent → ∀ c r₁, t.process c = some r₁ → r₁.parent = some p →
      c ≠ child := by
    rintro p hp' c r₁ hr₁ hpar rfl
    rw [hc] at hr₁
    cases hr₁
    exact hp' (Option.some.inj (hpar.symm.trans hparent))
  refine ⟨fun p hp' => ⟨hsame p, fun c hchild => ?_, fun c hchild => ?_⟩, hsame parent,
    fun p c hchild => ?_, fun c r₂ hr₂ => ?_⟩
  · obtain ⟨r₁, hr₁, hpar⟩ := hchild
    obtain ⟨r₂, hr₂, hpar', -⟩ := hrecord c r₁ hr₁
    rw [if_neg (hother p hp' c r₁ hr₁ hpar)] at hpar'
    exact ⟨r₂, hr₂, hpar'.trans hpar⟩
  · obtain ⟨r₁, hr₁, hpar, hfin⟩ := hchild
    obtain ⟨r₂, hr₂, hpar', hthreads, -, hstatus, -⟩ := hrecord c r₁ hr₁
    rw [if_neg (hother p hp' c r₁ hr₁ hpar)] at hpar'
    refine ⟨r₂, hr₂, hpar'.trans hpar, ?_⟩
    rw [ProcessControlBlock.isFinished, hthreads, hstatus]
    exact hfin
  · obtain ⟨r₂, hr₂, hpar, hfin⟩ := hchild
    obtain ⟨r₁, hr₁⟩ := hback c r₂ hr₂
    obtain ⟨r₃, hr₃, hpar', hthreads, -, hstatus, -⟩ := hrecord c r₁ hr₁
    rw [hr₂] at hr₃
    cases hr₃
    rw [hpar] at hpar'
    split_ifs at hpar'
    refine ⟨r₁, hr₁, hpar'.symm, ?_⟩
    rw [ProcessControlBlock.isFinished, ← hthreads, ← hstatus]
    exact hfin
  · obtain ⟨r₁, hr₁⟩ := hback c r₂ hr₂
    obtain ⟨r₃, hr₃, -, -, -, hstatus, hwaiters⟩ := hrecord c r₁ hr₁
    rw [hr₂] at hr₃
    cases hr₃
    exact Or.inl ⟨r₁, hr₁, hwaiters, hstatus⟩

/-- Retiring a thread of one process leaves the others alone. -/
theorem keeps_removeThread (table : ProcessTable) (process thread : ℕ) :
    (∀ p, p ≠ process → Keeps table (table.removeThread process thread).2 p) ∧
      Inherits table (table.removeThread process thread).2 ∧
      (table.removeThread process thread).2.nextId = table.nextId := by
  have hid : ∀ (r : ProcessControlBlock) (a : Bool) (r' : ProcessControlBlock),
      (if r.threads.contains thread then
        .ok ((Vec.swapRemove r.threads (r.threads.idxOf thread)).isEmpty,
          { r with threads := Vec.swapRemove r.threads (r.threads.idxOf thread) })
      else .error .unknownProcess : Except ProcessError (Bool × ProcessControlBlock)) = .ok (a, r') →
      r'.id = r.id := by
    intro r a r' hok
    split_ifs at hok
    obtain ⟨-, rfl⟩ := Prod.mk.inj (Except.ok.inj hok)
    rfl
  rcases ProcessTable.onRecord_cases table process hid with
    ⟨e, heq⟩ | ⟨r, a, r', hr, hok, heq, hprocess⟩
  · have htable : table.removeThread process thread = (.error e, table) := heq
    rw [htable]
    exact ⟨fun p _ => Keeps.refl table p, Inherits.refl table, rfl⟩
  · have htable : table.removeThread process thread = (.ok a, table.setProcess r') := heq
    rw [htable]
    split_ifs at hok with hmem
    obtain ⟨-, rfl⟩ := Prod.mk.inj (Except.ok.inj hok)
    refine ⟨fun p hp => keeps_of_update hr hprocess rfl (fun hfin => ?_) hp,
      inherits_of_update hprocess (Or.inl ⟨r, hr, rfl, rfl⟩), rfl⟩
    -- a process with a thread has not finished
    have hnil : r.threads = [] := by
      rw [ProcessControlBlock.isFinished, Bool.and_eq_true, List.isEmpty_iff] at hfin
      exact hfin.2
    rw [hnil] at hmem
    cases hmem

/-- What the exit of a process leaves: its children are init's, its status is recorded, and the other
processes keep what they have. -/
structure Exited (t t' : ProcessTable) (process : ℕ) (status : ℤ) : Prop where
  keeps : ∀ p, p ≠ process → Keeps t t' p
  record : ∀ r, t.process process = some r → ∃ r', t'.process process = some r' ∧
    r'.threads = r.threads ∧ r'.addressSpace = r.addressSpace ∧ r'.exitStatus = some status
  noWaiters : NoWaiters t → NoWaiters t'
  status : ∀ p r' s, t'.process p = some r' → r'.exitStatus = some s →
    p = process ∧ s = status ∨ ∃ r, t.process p = some r ∧ r.exitStatus = some s
  nextId : t'.nextId = t.nextId

/-- The two operations of `exit_current` on the table. -/
theorem exited_perform {h : History} (hrec : h.Recorded) {process : ℕ} (status : ℤ)
    (hr : h.table.process process = some r) (hrunning : r.exitStatus = none)
    (hinit : process ≠ initPid) :
    ((h.perform (.reparentChildren process)).perform (.exit process status)).Recorded ∧
      Exited h.table
        ((h.perform (.reparentChildren process)).perform (.exit process status)).table
        process status := by
  obtain ⟨ri, hri, -⟩ := hrec.family.init_live
  have hself : process ∉ r.children := fun hmem => by
    rw [hrec.family.children_iff process r process hr] at hmem
    exact absurd (hrec.family.parent_lt process process hmem) (lt_irrefl _)
  have hinitOut : initPid ∉ r.children := fun hmem => by
    rw [hrec.family.children_iff process r initPid hr, hrec.family.init_parentless] at hmem
    cases hmem
  obtain ⟨-, hnext, -, hprocess⟩ := ProcessTable.reparentChildren_eq hr hinit
    (Option.isSome_iff_exists.mpr ⟨ri, hri⟩) hinitOut hself
  set t₁ := h.table.reparentChildren process initPid with ht₁
  have hrec₁ : (h.perform (.reparentChildren process)).Recorded := hrec.step_reparentChildren process
  -- the record of the process once it has no children
  have hr₁ : t₁.process process = some { r with children := [] } := by
    rw [hprocess, Family.reparented, hr, Option.map_some, if_neg hself, if_pos rfl]
  set r₂ : ProcessControlBlock := { r with children := [], exitStatus := some status } with hr₂
  have hexit : t₁.exit process status = (.ok (), t₁.setProcess r₂) := by
    simp [ProcessTable.exit, ProcessTable.onRecord, hr₁, hrunning, hr₂]
  have hprocess₂ : (t₁.setProcess r₂).process = Function.update t₁.process process (some r₂) :=
    ProcessTable.process_setProcess hr₁ rfl
  have htable : ((h.perform (.reparentChildren process)).perform (.exit process status)).table =
      t₁.setProcess r₂ := by
    show (t₁.exit process status).2 = _
    rw [hexit]
  have hstep : History.Step (h.perform (.reparentChildren process)) (.exit process status)
      ((h.perform (.reparentChildren process)).perform (.exit process status)) := by
    refine ⟨⟨hinit, fun r' hr' _ => ?_⟩, rfl⟩
    cases hr₁.symm.trans hr'
    rfl
  -- handing the children over changes links only
  have hlinks : ∀ c r', t₁.process c = some r' → ∃ r₀, h.table.process c = some r₀ ∧
      r'.childWaiters = r₀.childWaiters ∧ r'.exitStatus = r₀.exitStatus := by
    intro c r' hr'
    rw [hprocess] at hr'
    obtain ⟨r₀, hr₀, rfl⟩ := Option.map_eq_some_iff.mp hr'
    exact ⟨r₀, hr₀, rfl, rfl⟩
  refine ⟨hrec₁.step hstep, ?_⟩
  rw [htable]
  exact {
    keeps := fun p hp => by
      refine (keeps_reparented hrec.family hr hprocess hp).1.trans ?_
      refine keeps_of_update hr₁ hprocess₂ rfl (fun hfin => ?_) hp
      simp [ProcessControlBlock.isFinished, hrunning] at hfin
    record := fun r' hr' => by
      cases hr.symm.trans hr'
      exact ⟨r₂, by rw [hprocess₂, Function.update_self], rfl, rfl, rfl⟩
    noWaiters := fun hno p r' hr' => by
      rw [hprocess₂] at hr'
      by_cases hp : p = process
      · rw [hp, Function.update_self] at hr'
        cases hr'
        exact hno process r hr
      · rw [Function.update_of_ne hp] at hr'
        obtain ⟨r₀, hr₀, hwaiters, -⟩ := hlinks p r' hr'
        exact hwaiters.trans (hno p r₀ hr₀)
    status := fun p r' s hr' hs => by
      rw [hprocess₂] at hr'
      by_cases hp : p = process
      · rw [hp, Function.update_self] at hr'
        cases hr'
        exact Or.inl ⟨hp, (Option.some.inj hs).symm⟩
      · rw [Function.update_of_ne hp] at hr'
        obtain ⟨r₀, hr₀, -, hstatus⟩ := hlinks p r' hr'
        exact Or.inr ⟨r₀, hr₀, hstatus.symm.trans hs⟩
    nextId := hnext }

/-- Collecting a finished child. -/
theorem keeps_waitChild {h : History} (hrec : h.Recorded) {status : ℤ}
    (hok : (h.table.waitChild parent child).1 = .ok status) :
    (∀ p, p ≠ parent → Keeps h.table (h.table.waitChild parent child).2 p) ∧
      SameRecord h.table (h.table.waitChild parent child).2 parent ∧
      (∀ p, NoneFinishes h.table (h.table.waitChild parent child).2 p) ∧
      Inherits h.table (h.table.waitChild parent child).2 ∧
      (h.table.waitChild parent child).2.nextId = h.table.nextId := by
  obtain ⟨rp, rc, t, hp, hc, hparent, -, -, hdisown, heq⟩ := hrec.waitChild_ok hok
  have hlink : parentOf h.table.process child = some parent := (parentOf_of_some hc).trans hparent
  have hne : child ≠ parent := (hrec.family.parent_lt child parent hlink).ne'
  obtain ⟨t₁, hdisown₁, -, hnext, -⟩ := ProcessTable.disown_eq hp hc hne
  obtain rfl : t = t₁ := congrArg Prod.snd (hdisown.symm.trans hdisown₁)
  have hrec₁ := (hrec.of_disown hp hc hparent hdisown).2
  obtain ⟨hkeep, hrecord, hnone, hinherits⟩ := keeps_disown hrec.family hp hc hparent hdisown
  have hreap := keeps_reapIfEmpty hrec₁.ids hrec₁.family child
  have hreapNext : (t.reapIfEmpty child).2.nextId = t.nextId := by
    rcases ProcessTable.reapIfEmpty_cases hrec₁.ids hrec₁.family child with
      ⟨-, hsame⟩ | ⟨r, -, -, -, -, hnext', -⟩
    · rw [hsame]
    · exact hnext'
  rw [heq]
  exact ⟨fun p hp' => (hkeep p hp').trans (hreap p).1, hrecord.trans (hreap parent).1.record,
    fun p => (hnone p).trans (hreap p).2,
    hinherits.trans (inherits_reapIfEmpty hrec₁.ids hrec₁.family child), hreapNext.trans hnext⟩

end SaeOS.Process
