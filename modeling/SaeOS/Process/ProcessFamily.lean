import SaeOS.Lib.Forest
import SaeOS.Process.ProcessTable

/-!
# Families of processes

What the operations of the process table do to the lookups, and the invariant `Family` of the
parent and child links: a child list holds exactly the processes whose parent field names its owner,
an exited process has no children, parents are older than their children, and init is alive.

Each operation is first described as an update of the lookup function, by a lemma that names the
records it writes; the invariant is then a property of lookup functions alone.
-/

namespace SaeOS.Process

namespace ProcessTable

variable {t t' : ProcessTable} {id : ℕ} {r r₀ : ProcessControlBlock}

/-! ## Lookups -/

theorem process_id (h : t.process id = some r) : r.id = id := by
  have := List.find?_some h
  simpa using this

theorem find?_setFirst (ps : List ProcessControlBlock) (hid : (ps.find? fun p => p.id == r.id).isSome)
    (id : ℕ) : ((setFirst r ps).find? fun p => p.id == id) =
      if id = r.id then some r else ps.find? fun p => p.id == id := by
  induction ps with
  | nil => simp at hid
  | cons p ps ih =>
    by_cases hp : p.id = r.id
    · by_cases heq : id = r.id
      · simp [setFirst, hp, heq]
      · simp [setFirst, hp, heq, Ne.symm heq]
    · have hrec := ih (by simpa [List.find?_cons, hp] using hid)
      by_cases heq : p.id = id
      · have hne : id ≠ r.id := fun h => hp (heq.trans h)
        simp [setFirst, heq, hne]
      · simp [setFirst, hp, heq, hrec]

/-- Writing a record back changes the lookup of its id only. -/
theorem process_setProcess (h : t.process id = some r₀) (hid : r.id = r₀.id) :
    (t.setProcess r).process = Function.update t.process id (some r) := by
  have hid' : r.id = id := hid.trans (process_id h)
  subst hid'
  funext id
  have hfind := find?_setFirst (r := r) t.processes
    (by rw [show (t.processes.find? fun p => p.id == r.id) = some r₀ from h]; rfl) id
  by_cases heq : id = r.id
  · rw [heq, Function.update_self]
    rw [heq, if_pos rfl] at hfind
    exact hfind
  · rw [Function.update_of_ne heq]
    rw [if_neg heq] at hfind
    exact hfind

theorem map_id_setFirst (ps : List ProcessControlBlock) :
    (setFirst r ps).map (·.id) = ps.map (·.id) := by
  induction ps with
  | nil => rfl
  | cons p ps ih =>
    by_cases hp : p.id = r.id
    · simp [setFirst, hp]
    · simp [setFirst, hp, ih]

/-- What an operation on one record does: nothing, or it writes the record back. -/
theorem onRecord_cases {α : Type} (t : ProcessTable) (id : ℕ)
    {edit : ProcessControlBlock → Except ProcessError (α × ProcessControlBlock)}
    (hid : ∀ r a r', edit r = .ok (a, r') → r'.id = r.id) :
    (∃ e, t.onRecord id edit = (.error e, t)) ∨
      ∃ r a r', t.process id = some r ∧ edit r = .ok (a, r') ∧
        t.onRecord id edit = (.ok a, t.setProcess r') ∧
        (t.setProcess r').process = Function.update t.process id (some r') := by
  unfold onRecord
  cases hr : t.process id with
  | none => exact Or.inl ⟨_, rfl⟩
  | some r =>
    cases hedit : edit r with
    | error e => exact Or.inl ⟨e, by simp only [hedit]⟩
    | ok p =>
      obtain ⟨a, r'⟩ := p
      exact Or.inr ⟨r, a, r', rfl, hedit, by simp only [hedit],
        process_setProcess hr (hid r a r' hedit)⟩

/-! ## Ids -/

/-- The ids of the records are distinct, and below the next id. -/
structure IdsOk (t : ProcessTable) : Prop where
  nodup : (t.processes.map (·.id)).Nodup
  lt : ∀ r ∈ t.processes, r.id < t.nextId
  next : initPid < t.nextId

/-- With distinct ids the lookup finds exactly the records of the table. -/
theorem IdsOk.process_eq_some_iff (h : t.IdsOk) (id : ℕ) (r : ProcessControlBlock) :
    t.process id = some r ↔ r ∈ t.processes ∧ r.id = id := by
  constructor
  · intro hr
    exact ⟨List.mem_of_find?_eq_some hr, process_id hr⟩
  · rintro ⟨hmem, rfl⟩
    have hsome : (t.process r.id).isSome := by
      rw [process, List.find?_isSome]
      exact ⟨r, hmem, by simp⟩
    obtain ⟨r', hr'⟩ := Option.isSome_iff_exists.mp hsome
    have heq : r' = r := List.inj_on_of_nodup_map h.nodup (List.mem_of_find?_eq_some hr') hmem
      (process_id hr')
    rw [hr', heq]

theorem IdsOk.lt_of_process (h : t.IdsOk) (hr : t.process id = some r) : id < t.nextId := by
  obtain ⟨hmem, rfl⟩ := (h.process_eq_some_iff id r).mp hr
  exact h.lt r hmem

theorem IdsOk.next_fresh (h : t.IdsOk) : t.process t.nextId = none := by
  cases hr : t.process t.nextId with
  | none => rfl
  | some r => exact absurd (h.lt_of_process hr) (lt_irrefl _)

/-- Records with the same ids: what every write keeps. -/
theorem IdsOk.of_map_eq (h : t.IdsOk) (hids : t'.processes.map (·.id) = t.processes.map (·.id))
    (hnext : t'.nextId = t.nextId) : t'.IdsOk := by
  refine ⟨hids ▸ h.nodup, fun r hr => ?_, hnext ▸ h.next⟩
  have hmem : r.id ∈ t'.processes.map (·.id) := List.mem_map_of_mem hr
  rw [hids] at hmem
  obtain ⟨r', hr', heq⟩ := List.mem_map.mp hmem
  rw [hnext, ← heq]
  exact h.lt r' hr'

theorem IdsOk.setProcess (h : t.IdsOk) (r : ProcessControlBlock) : (t.setProcess r).IdsOk :=
  h.of_map_eq (map_id_setFirst t.processes) rfl

/-- A new process is looked up under the id it was given. -/
theorem IdsOk.create (h : t.IdsOk) (space : Option ℕ) (thread : ℕ) :
    (t.create space thread).2.IdsOk ∧ (t.create space thread).2.process =
      Function.update t.process t.nextId (some (.new t.nextId none space thread)) := by
  have hids : (t.create space thread).2.IdsOk := by
    refine ⟨?_, ?_, ?_⟩
    · rw [ProcessTable.create, List.map_append, List.map_singleton, ← List.concat_eq_append]
      refine h.nodup.concat fun hmem => ?_
      obtain ⟨r, hr, heq⟩ := List.mem_map.mp hmem
      exact absurd (heq ▸ h.lt r hr) (lt_irrefl _)
    · intro r hr
      rcases List.mem_append.mp hr with hr | hr
      · exact (h.lt r hr).trans (Nat.lt_succ_self _)
      · rw [List.mem_singleton.mp hr]
        exact Nat.lt_succ_self _
    · exact h.next.trans (Nat.lt_succ_self _)
  refine ⟨hids, ?_⟩
  funext id
  by_cases heq : id = t.nextId
  · rw [heq, Function.update_self, hids.process_eq_some_iff]
    exact ⟨List.mem_append_right _ (List.mem_singleton_self _), rfl⟩
  · rw [Function.update_of_ne heq]
    simp only [process, ProcessTable.create, List.find?_append]
    cases (t.processes.find? fun r => r.id == id) with
    | some r => rfl
    | none => simp [ProcessControlBlock.new, Ne.symm heq]

end ProcessTable

/-! ## The invariant of the links -/

/-- The parent field of a process. -/
def parentOf (process : ℕ → Option ProcessControlBlock) (id : ℕ) : Option ℕ :=
  (process id).bind ProcessControlBlock.parent

/-- Parents and children agree, and init is alive. -/
structure Family (process : ℕ → Option ProcessControlBlock) : Prop where
  children_iff : ∀ p r child, process p = some r →
    (child ∈ r.children ↔ parentOf process child = some p)
  children_nodup : ∀ p r, process p = some r → r.children.Nodup
  parent_live : ∀ child p, parentOf process child = some p → ∃ r, process p = some r
  parent_lt : ∀ child p, parentOf process child = some p → p < child
  exited_childless : ∀ p r, process p = some r → r.exitStatus.isSome → r.children = []
  init_live : ∃ r, process initPid = some r ∧ r.exitStatus = none ∧ r.parent = none

theorem parentOf_of_some {process : ℕ → Option ProcessControlBlock} {id : ℕ}
    {r : ProcessControlBlock} (h : process id = some r) : parentOf process id = r.parent := by
  rw [parentOf, h, Option.bind_some]

theorem parentOf_update (process : ℕ → Option ProcessControlBlock) (id : ℕ)
    (x : Option ProcessControlBlock) : parentOf (Function.update process id x) =
      Function.update (parentOf process) id (x.bind ProcessControlBlock.parent) := by
  funext id'
  by_cases heq : id' = id
  · subst heq
    simp [parentOf]
  · simp [parentOf, Function.update_of_ne heq]

namespace Family

variable {process process' : ℕ → Option ProcessControlBlock} {id p child : ℕ}
  {r r' : ProcessControlBlock}

/-- A parent has not exited. -/
theorem parent_running (h : Family process) (hparent : parentOf process child = some p) :
    ∃ r, process p = some r ∧ r.exitStatus = none ∧ child ∈ r.children := by
  obtain ⟨r, hr⟩ := h.parent_live child p hparent
  have hmem := (h.children_iff p r child hr).mpr hparent
  refine ⟨r, hr, ?_, hmem⟩
  cases hstatus : r.exitStatus with
  | none => rfl
  | some status =>
    rw [h.exited_childless p r hr (by rw [hstatus]; rfl)] at hmem
    cases hmem

/-- Parent links end. -/
theorem grounded (h : Family process) : Forest.Grounded (parentOf process) :=
  Subrelation.wf (fun {p child} hparent => h.parent_lt child p hparent)
    (wellFounded_lt : WellFounded fun a b : ℕ => a < b)

/-- Rewriting a record whose links stay and whose exit, if it is recorded now, finds no children. -/
theorem edit (h : Family process) (hr : process id = some r) (hparent : r'.parent = r.parent)
    (hchildren : r'.children = r.children)
    (hexit : r'.exitStatus = r.exitStatus ∨ r.children = [] ∧ id ≠ initPid) :
    Family (Function.update process id (some r')) := by
  have hparents : parentOf (Function.update process id (some r')) = parentOf process := by
    rw [parentOf_update, Option.bind_some, hparent, ← parentOf_of_some hr, Function.update_eq_self]
  -- a record of the new table has the links of the old one
  have hold : ∀ p r₁, Function.update process id (some r') p = some r₁ →
      ∃ r₂, process p = some r₂ ∧ r₁.children = r₂.children ∧
        (r₁.exitStatus = r₂.exitStatus ∨ r₂.children = []) := by
    intro p r₁ hr₁
    by_cases heq : p = id
    · subst heq
      rw [Function.update_self] at hr₁
      cases hr₁
      exact ⟨r, hr, hchildren, hexit.imp_right And.left⟩
    · rw [Function.update_of_ne heq] at hr₁
      exact ⟨r₁, hr₁, rfl, Or.inl rfl⟩
  refine ⟨?_, ?_, ?_, ?_, ?_, ?_⟩
  · intro p r₁ child hr₁
    obtain ⟨r₂, hr₂, hch, -⟩ := hold p r₁ hr₁
    rw [hparents, hch]
    exact h.children_iff p r₂ child hr₂
  · intro p r₁ hr₁
    obtain ⟨r₂, hr₂, hch, -⟩ := hold p r₁ hr₁
    rw [hch]
    exact h.children_nodup p r₂ hr₂
  · intro child p hp
    rw [hparents] at hp
    obtain ⟨r₂, hr₂⟩ := h.parent_live child p hp
    by_cases heq : p = id
    · exact ⟨r', by rw [heq, Function.update_self]⟩
    · exact ⟨r₂, by rw [Function.update_of_ne heq, hr₂]⟩
  · intro child p hp
    rw [hparents] at hp
    exact h.parent_lt child p hp
  · intro p r₁ hr₁ hstatus
    obtain ⟨r₂, hr₂, hch, hex | hempty⟩ := hold p r₁ hr₁
    · rw [hch]
      exact h.exited_childless p r₂ hr₂ (hex ▸ hstatus)
    · rw [hch, hempty]
  · obtain ⟨r₀, hr₀, hstatus, hnone⟩ := h.init_live
    by_cases heq : initPid = id
    · subst heq
      rw [hr] at hr₀
      cases hr₀
      refine ⟨r', Function.update_self .., ?_, hparent.trans hnone⟩
      rcases hexit with hex | ⟨-, hne⟩
      · exact hex.trans hstatus
      · exact absurd rfl hne
    · exact ⟨r₀, by rw [Function.update_of_ne heq, hr₀], hstatus, hnone⟩

/-- A new process without relatives. -/
theorem insert (h : Family process) (hfresh : process id = none) (hparent : r.parent = none)
    (hchildren : r.children = []) : Family (Function.update process id (some r)) := by
  have hparents : parentOf (Function.update process id (some r)) = parentOf process := by
    have hnone : parentOf process id = none := by rw [parentOf, hfresh, Option.bind_none]
    rw [parentOf_update, Option.bind_some, hparent, ← hnone, Function.update_eq_self]
  -- nobody has the new process as its parent
  have hno : ∀ child, parentOf process child ≠ some id := by
    intro child hp
    obtain ⟨r₀, hr₀⟩ := h.parent_live child id hp
    rw [hfresh] at hr₀
    cases hr₀
  refine ⟨?_, ?_, ?_, ?_, ?_, ?_⟩
  · intro p r₁ child hr₁
    rw [hparents]
    by_cases heq : p = id
    · subst heq
      rw [Function.update_self] at hr₁
      cases hr₁
      simp [hchildren, hno child]
    · rw [Function.update_of_ne heq] at hr₁
      exact h.children_iff p r₁ child hr₁
  · intro p r₁ hr₁
    by_cases heq : p = id
    · subst heq
      rw [Function.update_self] at hr₁
      cases hr₁
      rw [hchildren]
      exact List.nodup_nil
    · rw [Function.update_of_ne heq] at hr₁
      exact h.children_nodup p r₁ hr₁
  · intro child p hp
    rw [hparents] at hp
    obtain ⟨r₀, hr₀⟩ := h.parent_live child p hp
    have hne : p ≠ id := by
      rintro rfl
      exact hno child hp
    exact ⟨r₀, by rw [Function.update_of_ne hne, hr₀]⟩
  · intro child p hp
    rw [hparents] at hp
    exact h.parent_lt child p hp
  · intro p r₁ hr₁ hstatus
    by_cases heq : p = id
    · subst heq
      rw [Function.update_self] at hr₁
      cases hr₁
      exact hchildren
    · rw [Function.update_of_ne heq] at hr₁
      exact h.exited_childless p r₁ hr₁ hstatus
  · obtain ⟨r₀, hr₀, hstatus, hnone⟩ := h.init_live
    have hne : initPid ≠ id := by
      rintro rfl
      rw [hfresh] at hr₀
      cases hr₀
    exact ⟨r₀, by rw [Function.update_of_ne hne, hr₀], hstatus, hnone⟩

/-- Relinking the processes: the same ones are alive and have exited, and the new links agree and
lead to older processes that have not exited. -/
theorem relink (h : Family process)
    (hsame : ∀ p, (process' p).map ProcessControlBlock.exitStatus =
      (process p).map ProcessControlBlock.exitStatus)
    (hchildren : ∀ p r child, process' p = some r →
      (child ∈ r.children ↔ parentOf process' child = some p))
    (hnodup : ∀ p r, process' p = some r → r.children.Nodup)
    (hparent : ∀ child p, parentOf process' child = some p →
      p < child ∧ ∃ r, process p = some r ∧ r.exitStatus = none)
    (hinit : parentOf process' initPid = none) : Family process' := by
  -- the record of a process in the other table
  have hlive : ∀ p r, process p = some r → ∃ r', process' p = some r' ∧
      r'.exitStatus = r.exitStatus := by
    intro p r hr
    have hmap := hsame p
    rw [hr, Option.map_some] at hmap
    exact Option.map_eq_some_iff.mp hmap
  refine ⟨hchildren, hnodup, ?_, ?_, ?_, ?_⟩
  · intro child p hp
    obtain ⟨-, r, hr, -⟩ := hparent child p hp
    obtain ⟨r', hr', -⟩ := hlive p r hr
    exact ⟨r', hr'⟩
  · intro child p hp
    exact (hparent child p hp).1
  · intro p r' hr' hstatus
    rw [List.eq_nil_iff_forall_not_mem]
    intro child hmem
    obtain ⟨-, r, hr, hnone⟩ := hparent child p ((hchildren p r' child hr').mp hmem)
    obtain ⟨r'', hr'', heq⟩ := hlive p r hr
    rw [hr'] at hr''
    cases hr''
    rw [heq, hnone] at hstatus
    cases hstatus
  · obtain ⟨r, hr, hstatus, -⟩ := h.init_live
    obtain ⟨r', hr', heq⟩ := hlive initPid r hr
    exact ⟨r', hr', heq.trans hstatus, (parentOf_of_some hr').symm.trans hinit⟩

theorem init_parentless (h : Family process) : parentOf process initPid = none := by
  obtain ⟨r, hr, -, hnone⟩ := h.init_live
  rw [parentOf_of_some hr, hnone]

/-- A process without a parent becomes the youngest child of an older one that has not exited. -/
theorem adopt (h : Family process) {rp rc : ProcessControlBlock} (hp : process p = some rp)
    (hc : process child = some rc) (hnone : rc.parent = none) (hrunning : rp.exitStatus = none)
    (hlt : p < child) (hinit : child ≠ initPid) :
    Family (Function.update (Function.update process child (some { rc with parent := some p })) p
      (some { rp with children := rp.children ++ [child] })) := by
  have hne : p ≠ child := hlt.ne
  have hparents : parentOf (Function.update
      (Function.update process child (some { rc with parent := some p })) p
      (some { rp with children := rp.children ++ [child] })) =
      Function.update (parentOf process) child (some p) := by
    rw [parentOf_update, parentOf_update, Option.bind_some, Option.bind_some,
      ← parentOf_of_some hp]
    exact (congrArg _ (Function.update_of_ne hne _ _).symm).trans (Function.update_eq_self ..)
  have hnotMem : child ∉ rp.children := fun hmem => by
    rw [h.children_iff p rp child hp, parentOf_of_some hc, hnone] at hmem
    cases hmem
  refine h.relink (fun q => ?_) (fun q r₁ c hr₁ => ?_) (fun q r₁ hr₁ => ?_) (fun c q hq => ?_) ?_
  · by_cases hqp : q = p
    · subst hqp
      rw [Function.update_self, hp]
      rfl
    · rw [Function.update_of_ne hqp]
      by_cases hqc : q = child
      · subst hqc
        rw [Function.update_self, hc]
        rfl
      · rw [Function.update_of_ne hqc]
  · rw [hparents]
    by_cases hqp : q = p
    · subst hqp
      rw [Function.update_self] at hr₁
      cases hr₁
      by_cases hcc : c = child
      · subst hcc
        simp
      · rw [Function.update_of_ne hcc, ← h.children_iff q rp c hp]
        simp [hcc]
    · -- the children of another process stay
      rw [Function.update_of_ne hqp] at hr₁
      have hsame : ∃ r₂, process q = some r₂ ∧ r₁.children = r₂.children := by
        by_cases hqc : q = child
        · subst hqc
          rw [Function.update_self] at hr₁
          cases hr₁
          exact ⟨rc, hc, rfl⟩
        · rw [Function.update_of_ne hqc] at hr₁
          exact ⟨r₁, hr₁, rfl⟩
      obtain ⟨r₂, hr₂, heq⟩ := hsame
      rw [heq, h.children_iff q r₂ c hr₂]
      by_cases hcc : c = child
      · subst hcc
        rw [Function.update_self, parentOf_of_some hc, hnone]
        simp [Ne.symm hqp]
      · rw [Function.update_of_ne hcc]
  · by_cases hqp : q = p
    · subst hqp
      rw [Function.update_self] at hr₁
      cases hr₁
      rw [← List.concat_eq_append]
      exact (h.children_nodup q rp hp).concat hnotMem
    · rw [Function.update_of_ne hqp] at hr₁
      by_cases hqc : q = child
      · subst hqc
        rw [Function.update_self] at hr₁
        cases hr₁
        exact h.children_nodup q rc hc
      · rw [Function.update_of_ne hqc] at hr₁
        exact h.children_nodup q r₁ hr₁
  · rw [hparents] at hq
    by_cases hcc : c = child
    · subst hcc
      rw [Function.update_self] at hq
      cases hq
      exact ⟨hlt, rp, hp, hrunning⟩
    · rw [Function.update_of_ne hcc] at hq
      obtain ⟨r₂, hr₂, hstatus, -⟩ := h.parent_running hq
      exact ⟨h.parent_lt c q hq, r₂, hr₂, hstatus⟩
  · rw [hparents, Function.update_of_ne hinit.symm]
    exact h.init_parentless

/-- A child leaves its parent. -/
theorem disown (h : Family process) {rp rc : ProcessControlBlock} (hp : process p = some rp)
    (hc : process child = some rc) (hparent : rc.parent = some p) :
    Family (Function.update (Function.update process p
      (some { rp with children := rp.children.filter fun id => id != child })) child
      (some { rc with parent := none })) := by
  have hlink : parentOf process child = some p := (parentOf_of_some hc).trans hparent
  have hne : child ≠ p := (h.parent_lt child p hlink).ne'
  have hparents : parentOf (Function.update (Function.update process p
      (some { rp with children := rp.children.filter fun id => id != child })) child
      (some { rc with parent := none })) = Function.update (parentOf process) child none := by
    rw [parentOf_update, parentOf_update, Option.bind_some, Option.bind_some,
      ← parentOf_of_some hp, Function.update_eq_self]
  refine h.relink (fun q => ?_) (fun q r₁ c hr₁ => ?_) (fun q r₁ hr₁ => ?_) (fun c q hq => ?_) ?_
  · by_cases hqc : q = child
    · subst hqc
      rw [Function.update_self, hc]
      rfl
    · rw [Function.update_of_ne hqc]
      by_cases hqp : q = p
      · subst hqp
        rw [Function.update_self, hp]
        rfl
      · rw [Function.update_of_ne hqp]
  · rw [hparents]
    by_cases hqp : q = p
    · subst hqp
      rw [Function.update_of_ne hne.symm, Function.update_self] at hr₁
      cases hr₁
      by_cases hcc : c = child
      · subst hcc
        simp
      · rw [Function.update_of_ne hcc, ← h.children_iff q rp c hp]
        simp [hcc]
    · have hsame : ∃ r₂, process q = some r₂ ∧ r₁.children = r₂.children := by
        by_cases hqc : q = child
        · subst hqc
          rw [Function.update_self] at hr₁
          cases hr₁
          exact ⟨rc, hc, rfl⟩
        · rw [Function.update_of_ne hqc, Function.update_of_ne hqp] at hr₁
          exact ⟨r₁, hr₁, rfl⟩
      obtain ⟨r₂, hr₂, heq⟩ := hsame
      rw [heq, h.children_iff q r₂ c hr₂]
      by_cases hcc : c = child
      · subst hcc
        rw [Function.update_self, hlink]
        simp [Ne.symm hqp]
      · rw [Function.update_of_ne hcc]
  · by_cases hqc : q = child
    · subst hqc
      rw [Function.update_self] at hr₁
      cases hr₁
      exact h.children_nodup q rc hc
    · rw [Function.update_of_ne hqc] at hr₁
      by_cases hqp : q = p
      · subst hqp
        rw [Function.update_self] at hr₁
        cases hr₁
        exact (h.children_nodup q rp hp).filter _
      · rw [Function.update_of_ne hqp] at hr₁
        exact h.children_nodup q r₁ hr₁
  · rw [hparents] at hq
    have hcc : c ≠ child := by
      rintro rfl
      rw [Function.update_self] at hq
      cases hq
    rw [Function.update_of_ne hcc] at hq
    obtain ⟨r₂, hr₂, hstatus, -⟩ := h.parent_running hq
    exact ⟨h.parent_lt c q hq, r₂, hr₂, hstatus⟩
  · rw [hparents]
    by_cases heq : initPid = child
    · rw [heq, Function.update_self]
    · rw [Function.update_of_ne heq]
      exact h.init_parentless

/-- The lookups once the children of `id` are handed to init. -/
def reparented (process : ℕ → Option ProcessControlBlock) (id : ℕ) (children : List ℕ) (q : ℕ) :
    Option ProcessControlBlock :=
  (process q).map fun r => { r with
    parent := if q ∈ children then some initPid else r.parent
    children := if q = id then [] else if q = initPid then r.children ++ children else r.children }

theorem parentOf_reparented (h : Family process) (hr : process id = some r) (c : ℕ) :
    parentOf (reparented process id r.children) c =
      if c ∈ r.children then some initPid else parentOf process c := by
  cases hc : process c with
  | none =>
    -- a child is alive, so this is none of the children
    have hnot : c ∉ r.children := fun hmem => by
      rw [h.children_iff id r c hr, parentOf, hc] at hmem
      cases hmem
    simp [parentOf, reparented, hc, hnot]
  | some rc => simp [parentOf, reparented, hc]

/-- The children of a process go to init. -/
theorem reparent (h : Family process) (hr : process id = some r) (hne : id ≠ initPid) :
    Family (reparented process id r.children) := by
  obtain ⟨ri, hri, hstatusInit, hnoneInit⟩ := h.init_live
  have hinitNot : initPid ∉ r.children := fun hmem => by
    rw [h.children_iff id r initPid hr, h.init_parentless] at hmem
    cases hmem
  have hold : ∀ q r₁, reparented process id r.children q = some r₁ →
      ∃ r₂, process q = some r₂ ∧ r₁.children =
        if q = id then [] else if q = initPid then r₂.children ++ r.children else r₂.children := by
    intro q r₁ hr₁
    obtain ⟨r₂, hr₂, rfl⟩ := Option.map_eq_some_iff.mp hr₁
    exact ⟨r₂, hr₂, rfl⟩
  refine h.relink (fun q => ?_) (fun q r₁ c hr₁ => ?_) (fun q r₁ hr₁ => ?_) (fun c q hq => ?_) ?_
  · rw [reparented, Option.map_map]
    rfl
  · obtain ⟨r₂, hr₂, heq⟩ := hold q r₁ hr₁
    have hchild := h.children_iff q r₂ c hr₂
    have hmoved := h.children_iff id r c hr
    rw [h.parentOf_reparented hr, heq]
    by_cases hmem : c ∈ r.children
    · -- a moved child is now a child of init and of nobody else
      have hparent := hmoved.mp hmem
      rw [hparent] at hchild
      by_cases hq : q = id
      · simp [hq, hmem, hne.symm]
      · by_cases hqi : q = initPid
        · simp [hqi, hmem, Ne.symm hne]
        · have hout : c ∉ r₂.children := fun hin => hq (Option.some.inj (hchild.mp hin)).symm
          simp [hq, hqi, hmem, hout, Ne.symm hqi]
    · by_cases hq : q = id
      · subst hq
        have hout : parentOf process c ≠ some q := fun hp => hmem (hmoved.mpr hp)
        simp [hmem, hout]
      · by_cases hqi : q = initPid
        · subst hqi
          simp [Ne.symm hne, hmem, hchild]
        · simp [hq, hqi, hmem, hchild]
  · obtain ⟨r₂, hr₂, heq⟩ := hold q r₁ hr₁
    rw [heq]
    split_ifs with hq hqi
    · exact List.nodup_nil
    · subst hqi
      refine List.nodup_append.mpr ⟨h.children_nodup _ r₂ hr₂, h.children_nodup id r hr, ?_⟩
      rintro a ha b hb rfl
      rw [h.children_iff initPid r₂ a hr₂] at ha
      rw [h.children_iff id r a hr, ha] at hb
      exact hne (Option.some.inj hb).symm
    · exact h.children_nodup q r₂ hr₂
  · rw [h.parentOf_reparented hr] at hq
    split_ifs at hq with hmem
    · cases hq
      refine ⟨?_, ri, hri, hstatusInit⟩
      have hlt := h.parent_lt c id ((h.children_iff id r c hr).mp hmem)
      have hpos : c ≠ initPid := fun heq => hinitNot (heq ▸ hmem)
      unfold initPid at hpos ⊢
      omega
    · obtain ⟨r₂, hr₂, hstatus, -⟩ := h.parent_running hq
      exact ⟨h.parent_lt c q hq, r₂, hr₂, hstatus⟩
  · rw [h.parentOf_reparented hr, if_neg hinitNot]
    exact h.init_parentless

/-- A process without relatives goes. -/
theorem remove (h : Family process) (hr : process id = some r) (hparent : r.parent = none)
    (hstatus : r.exitStatus.isSome) : Family (Function.update process id none) := by
  have hchildren := h.exited_childless id r hr hstatus
  have hparents : parentOf (Function.update process id none) = parentOf process := by
    rw [parentOf_update, Option.bind_none, ← hparent, ← parentOf_of_some hr,
      Function.update_eq_self]
  have hold : ∀ q r₁, Function.update process id none q = some r₁ → process q = some r₁ := by
    intro q r₁ hr₁
    by_cases hq : q = id
    · subst hq
      rw [Function.update_self] at hr₁
      cases hr₁
    · rwa [Function.update_of_ne hq] at hr₁
  refine ⟨fun q r₁ c hr₁ => ?_, fun q r₁ hr₁ => ?_, fun c q hq => ?_, fun c q hq => ?_,
    fun q r₁ hr₁ => ?_, ?_⟩
  · rw [hparents]
    exact h.children_iff q r₁ c (hold q r₁ hr₁)
  · exact h.children_nodup q r₁ (hold q r₁ hr₁)
  · rw [hparents] at hq
    obtain ⟨r₂, hr₂⟩ := h.parent_live c q hq
    have hne : q ≠ id := by
      rintro rfl
      have hmem := (h.children_iff q r c hr).mpr hq
      rw [hchildren] at hmem
      cases hmem
    exact ⟨r₂, by rw [Function.update_of_ne hne, hr₂]⟩
  · rw [hparents] at hq
    exact h.parent_lt c q hq
  · exact h.exited_childless q r₁ (hold q r₁ hr₁)
  · obtain ⟨ri, hri, hnone, hp⟩ := h.init_live
    have hne : initPid ≠ id := by
      rintro rfl
      rw [hr] at hri
      cases hri
      rw [hnone] at hstatus
      cases hstatus
    exact ⟨ri, by rw [Function.update_of_ne hne, hri], hnone, hp⟩

end Family

namespace ProcessTable

variable {t t' : ProcessTable} {id p child : ℕ} {r rp rc : ProcessControlBlock}

/-! ## The operations as updates of the lookups -/

/-- Creating a child adds a record and appends it to the parent's list. -/
theorem IdsOk.createChild (h : t.IdsOk) (hp : t.process p = some rp) (space : Option ℕ)
    (thread : ℕ) :
    ∃ t', t.createChild p space thread = (.ok t.nextId, t') ∧ t'.IdsOk ∧
      t'.nextId = t.nextId + 1 ∧ t'.releasedSpaces = t.releasedSpaces ∧
      t'.process = Function.update (Function.update
        (Function.update t.process t.nextId (some (.new t.nextId none space thread)))
        t.nextId (some (.new t.nextId (some p) space thread))) p
        (some { rp with children := rp.children ++ [t.nextId] }) := by
  obtain ⟨hids, hprocess⟩ := h.create space thread
  have hne : p ≠ t.nextId := (h.lt_of_process hp).ne
  set t₁ := (t.create space thread).2 with ht₁
  have hnew : t₁.process t.nextId = some (.new t.nextId none space thread) := by
    rw [hprocess, Function.update_self]
  -- the new record gets its parent
  set t₂ := t₁.setProcess (.new t.nextId (some p) space thread) with ht₂
  have hprocess₂ : t₂.process =
      Function.update t₁.process t.nextId (some (.new t.nextId (some p) space thread)) :=
    process_setProcess (r := .new t.nextId (some p) space thread) hnew rfl
  have hp₂ : t₂.process p = some rp := by
    rw [hprocess₂, Function.update_of_ne hne, hprocess, Function.update_of_ne hne, hp]
  refine ⟨t₂.setProcess { rp with children := rp.children ++ [t.nextId] }, ?_,
    (hids.setProcess _).setProcess _, rfl, rfl, ?_⟩
  · have hcreate : t.create space thread = (t.nextId, t₁) := rfl
    have hnewEq : ({ ProcessControlBlock.new t.nextId none space thread with
        parent := some p } : ProcessControlBlock) = .new t.nextId (some p) space thread := rfl
    simp only [ProcessTable.createChild, hp, Option.isNone_some, Bool.false_eq_true, if_false,
      hcreate, hnew, hnewEq, ← ht₂, hp₂]
  · rw [process_setProcess (r := { rp with children := rp.children ++ [t.nextId] }) hp₂ rfl,
      hprocess₂, hprocess]

/-- The parent's ownership ends in both records. -/
theorem disown_eq (hp : t.process p = some rp) (hc : t.process child = some rc) (hne : child ≠ p) :
    ∃ t', t.disown p child = (.ok (), t') ∧
      t'.processes.map (·.id) = t.processes.map (·.id) ∧ t'.nextId = t.nextId ∧
      t'.releasedSpaces = t.releasedSpaces ∧
      t'.process = Function.update (Function.update t.process p
        (some { rp with children := rp.children.filter fun id => id != child })) child
        (some { rc with parent := none }) := by
  set t₁ := t.setProcess { rp with children := rp.children.filter fun id => id != child } with ht₁
  have hprocess₁ : t₁.process = Function.update t.process p
      (some { rp with children := rp.children.filter fun id => id != child }) :=
    process_setProcess hp rfl
  have hc₁ : t₁.process child = some rc := by
    rw [hprocess₁, Function.update_of_ne hne, hc]
  refine ⟨t₁.setProcess { rc with parent := none }, ?_, ?_, rfl, rfl, ?_⟩
  · simp only [ProcessTable.disown, onRecord, hp, ← ht₁, hc₁]
  · exact (map_id_setFirst _).trans (map_id_setFirst _)
  · rw [process_setProcess (r := { rc with parent := none }) hc₁ rfl, hprocess₁]

/-- Setting the parent of each process of a list. -/
theorem setParents_eq (parent : ℕ) (children : List ℕ) (t : ProcessTable) :
    (setParents parent children t).processes.map (·.id) = t.processes.map (·.id) ∧
      (setParents parent children t).nextId = t.nextId ∧
      (setParents parent children t).releasedSpaces = t.releasedSpaces ∧
      ∀ q, (setParents parent children t).process q = (t.process q).map fun r =>
        { r with parent := if q ∈ children then some parent else r.parent } := by
  induction children generalizing t with
  | nil => simp [setParents]
  | cons c rest ih =>
    simp only [setParents]
    cases hc : t.process c with
    | none =>
      obtain ⟨hids, hnext, hreleased, hprocess⟩ := ih t
      refine ⟨hids, hnext, hreleased, fun q => ?_⟩
      rw [hprocess]
      by_cases hq : q = c
      · rw [hq, hc]
        rfl
      · simp [hq]
    | some r =>
      obtain ⟨hids, hnext, hreleased, hprocess⟩ := ih (t.setProcess { r with parent := some parent })
      have hset := process_setProcess (r := { r with parent := some parent }) hc rfl
      refine ⟨hids.trans (map_id_setFirst _), hnext, hreleased, fun q => ?_⟩
      rw [hprocess, hset]
      by_cases hq : q = c
      · subst hq
        simp [hc]
      · simp [hq]

/-- Handing the children of a process to init. -/
theorem reparentChildren_eq (hr : t.process id = some r) (hne : id ≠ initPid)
    (hinit : (t.process initPid).isSome) (hout : initPid ∉ r.children) (hself : id ∉ r.children) :
    (t.reparentChildren id initPid).processes.map (·.id) = t.processes.map (·.id) ∧
      (t.reparentChildren id initPid).nextId = t.nextId ∧
      (t.reparentChildren id initPid).releasedSpaces = t.releasedSpaces ∧
      (t.reparentChildren id initPid).process = Family.reparented t.process id r.children := by
  obtain ⟨ri, hri⟩ := Option.isSome_iff_exists.mp hinit
  have hset₁ := process_setProcess (r := { r with children := [] }) hr rfl
  obtain ⟨hids₂, hnext₂, hreleased₂, hprocess₂⟩ :=
    setParents_eq initPid r.children (t.setProcess { r with children := [] })
  set t₂ := setParents initPid r.children (t.setProcess { r with children := [] }) with ht₂
  have hri₂ : t₂.process initPid = some ri := by
    rw [hprocess₂, hset₁, Function.update_of_ne hne.symm, hri]
    simp [hout]
  have heq : t.reparentChildren id initPid =
      t₂.setProcess { ri with children := ri.children ++ r.children } := by
    simp only [reparentChildren, if_neg hne, hr, ← ht₂, hri₂]
  have hset₃ := process_setProcess (r := { ri with children := ri.children ++ r.children }) hri₂ rfl
  rw [heq]
  refine ⟨(map_id_setFirst _).trans (hids₂.trans (map_id_setFirst _)), hnext₂, hreleased₂, ?_⟩
  rw [hset₃]
  funext q
  by_cases hqi : q = initPid
  · subst hqi
    simp [Family.reparented, hri, hout, Ne.symm hne]
  · rw [Function.update_of_ne hqi, hprocess₂, hset₁]
    by_cases hq : q = id
    · subst hq
      simp [Family.reparented, hr, hself]
    · simp [Family.reparented, hq, hqi]

/-- What `reap_if_empty` does: nothing, or the record goes and its space is released. -/
theorem reapIfEmpty_cases (h : t.IdsOk) (hfamily : Family t.process) (id : ℕ) :
    ((t.process id).filter ProcessControlBlock.canReap = none ∧ t.reapIfEmpty id = (false, t)) ∨
      ∃ r, t.process id = some r ∧ r.canReap = true ∧ (t.reapIfEmpty id).1 = true ∧
        (t.reapIfEmpty id).2.IdsOk ∧ (t.reapIfEmpty id).2.nextId = t.nextId ∧
        (t.reapIfEmpty id).2.releasedSpaces = t.releasedSpaces ++ r.addressSpace.toList ∧
        (t.reapIfEmpty id).2.process = Function.update t.process id none := by
  cases hfilter : (t.process id).filter ProcessControlBlock.canReap with
  | none => exact Or.inl ⟨rfl, by simp only [reapIfEmpty, hfilter]⟩
  | some r =>
    obtain ⟨hr, hcan⟩ := Option.filter_eq_some_iff.mp hfilter
    have hparent : r.parent = none := by
      simp only [ProcessControlBlock.canReap, Bool.and_eq_true, Option.isNone_iff_eq_none] at hcan
      exact hcan.1.1.1.1
    -- the record sits where the search finds it
    have hget : t.processes[t.processes.findIdx fun r => r.id == id]? = some r := by
      rw [← List.find?_eq_getElem?_findIdx]
      exact hr
    have hperm := Vec.perm_swapRemove hget
    set rest := Vec.swapRemove t.processes (t.processes.findIdx fun r => r.id == id) with hrest
    -- it is in no child list, so the other records stay as they are
    have hsame : (rest.map fun p => { p with
        children := p.children.filter fun child => child != id }) = rest := by
      refine (List.map_congr_left fun p hp => ?_).trans (List.map_id rest)
      have hlive := (h.process_eq_some_iff p.id p).mpr
        ⟨hperm.mem_iff.mp (List.mem_cons_of_mem _ hp), rfl⟩
      have hout : ∀ child ∈ p.children, (child != id) = true := by
        intro child hmem
        have hlink := (hfamily.children_iff p.id p child hlive).mp hmem
        simp only [bne_iff_ne, ne_eq]
        rintro rfl
        rw [parentOf_of_some hr, hparent] at hlink
        cases hlink
      rw [List.filter_eq_self.mpr hout]
      rfl
    have heq : t.reapIfEmpty id = (true, { t with
        processes := rest
        releasedSpaces := t.releasedSpaces ++ r.addressSpace.toList }) := by
      simp only [reapIfEmpty, hfilter, ← hrest, hsame]
    have hnodup : (r.id :: rest.map (·.id)).Nodup := by
      have hmap := hperm.map ProcessControlBlock.id
      exact hmap.nodup_iff.mpr h.nodup
    have hids : ({ t with
        processes := rest
        releasedSpaces := t.releasedSpaces ++ r.addressSpace.toList } : ProcessTable).IdsOk :=
      ⟨(List.nodup_cons.mp hnodup).2,
        fun p hp => h.lt p (hperm.mem_iff.mp (List.mem_cons_of_mem _ hp)), h.next⟩
    refine Or.inr ⟨r, hr, hcan, by rw [heq], by rw [heq]; exact hids, by rw [heq], by rw [heq], ?_⟩
    rw [heq]
    funext q
    apply Option.ext
    intro x
    rw [hids.process_eq_some_iff]
    have hid : r.id = id := process_id hr
    by_cases hq : q = id
    · subst hq
      rw [Function.update_self]
      simp only [reduceCtorEq, iff_false, not_and]
      intro hx hxid
      exact (List.nodup_cons.mp hnodup).1 (by rw [hid, ← hxid]; exact List.mem_map_of_mem hx)
    · rw [Function.update_of_ne hq, h.process_eq_some_iff, ← hperm.mem_iff, List.mem_cons]
      constructor
      · rintro ⟨hx, hxid⟩
        exact ⟨Or.inr hx, hxid⟩
      · rintro ⟨rfl | hx, hxid⟩
        · exact absurd (hxid.symm.trans hid) hq
        · exact ⟨hx, hxid⟩

end ProcessTable

end SaeOS.Process
