import SaeOS.Lib.Run
import SaeOS.Process.ProcessFamily

/-!
# Runs of the process table

The table together with what happened to it: who created each process and with which address space,
whose status was collected, which records were reaped and which address spaces were taken. These
records serve to state what holds over whole runs; no operation reads them.

`reachable_familyConsistent` is the result: from the creation of init on, with every process handing its
children to init before its exit is recorded, parents and children agree, the parent links form a
forest, each status is collected at most once and by the current parent, each reaped process
releases its address space exactly once, and orphans can be collected by init.
-/

namespace SaeOS.Process

open ProcessTable (IdsOk)

/-- The operations on the table. `reparentChildren` hands the children to init. -/
inductive Op
  | create (space : Option ℕ) (thread : ℕ)
  | createChild (parent : ℕ) (space : Option ℕ) (thread : ℕ)
  | addThread (process thread : ℕ)
  | removeThread (process thread : ℕ)
  | reparentChildren (process : ℕ)
  | exit (process : ℕ) (status : ℤ)
  | waitChild (parent child : ℕ)
  | retain (process : ℕ)
  | release (process : ℕ)
  | addChildWaiter (child waiter : ℕ)
  | removeChildWaiter (child waiter : ℕ)
  | reapIfEmpty (process : ℕ)
  | takeReleasedSpaces

/-- The table and its history. -/
structure History where
  table : ProcessTable
  /-- Who created a process. -/
  creator : ℕ → Option ℕ := fun _ => none
  /-- The address space a process was created with. -/
  space : ℕ → Option ℕ := fun _ => none
  /-- The processes whose status was collected, in order. -/
  collected : List ℕ := []
  /-- The records reaped so far, as they were when they went. -/
  reaped : List ProcessControlBlock := []
  /-- The address spaces taken so far. -/
  taken : List ℕ := []

namespace History

/-- The table after an operation. -/
def tableAfter (t : ProcessTable) : Op → ProcessTable
  | .create space thread => (t.create space thread).2
  | .createChild parent space thread => (t.createChild parent space thread).2
  | .addThread process thread => (t.addThread process thread).2
  | .removeThread process thread => (t.removeThread process thread).2
  | .reparentChildren process => t.reparentChildren process initPid
  | .exit process status => (t.exit process status).2
  | .waitChild parent child => (t.waitChild parent child).2
  | .retain process => (t.retain process).2
  | .release process => (t.release process).2
  | .addChildWaiter child waiter => (t.addChildWaiter child waiter).2
  | .removeChildWaiter child waiter => (t.removeChildWaiter child waiter).2
  | .reapIfEmpty process => (t.reapIfEmpty process).2
  | .takeReleasedSpaces => t.takeReleasedSpaces.2

/-- The record that `reap_if_empty` would remove. -/
def reapedBy (t : ProcessTable) (process : ℕ) : List ProcessControlBlock :=
  ((t.process process).filter ProcessControlBlock.canReap).toList

/-- One operation, with its history. -/
def perform (h : History) (op : Op) : History :=
  let h' := { h with table := tableAfter h.table op }
  match op with
  | .create space _ => { h' with
      creator := Function.update h.creator h.table.nextId none
      space := Function.update h.space h.table.nextId space }
  | .createChild parent space thread =>
    match (h.table.createChild parent space thread).1 with
    | .error _ => h'
    | .ok child => { h' with
        creator := Function.update h.creator child (some parent)
        space := Function.update h.space child space }
  | .waitChild parent child =>
    match (h.table.waitChild parent child).1 with
    | .error _ => h'
    | .ok _ => { h' with
        collected := h.collected ++ [child]
        reaped := h.reaped ++ reapedBy (h.table.disown parent child).2 child }
  | .reapIfEmpty process => { h' with reaped := h.reaped ++ reapedBy h.table process }
  | .takeReleasedSpaces => { h' with taken := h.taken ++ h.table.takeReleasedSpaces.1 }
  | _ => h'

/-- What callers keep to: only a process that has not exited creates children, and a process other
than init records its exit once it has handed its children over. Init does not exit: its exit stops
the kernel. -/
def Allowed (h : History) : Op → Prop
  | .createChild parent _ _ => ∀ r, h.table.process parent = some r → r.exitStatus = none
  | .exit process _ => process ≠ initPid ∧
      ∀ r, h.table.process process = some r → r.exitStatus = none → r.children = []
  | _ => True

/-- One step of a run. -/
def Step (h : History) (op : Op) (h' : History) : Prop :=
  h.Allowed op ∧ h' = h.perform op

/-- The table once init is created. -/
def Initial (h : History) : Prop :=
  ∃ thread, h = { table := (({} : ProcessTable).createInit thread).2 }

variable {h h' : History} {id p child : ℕ} {r : ProcessControlBlock}

/-! ## The invariant -/

/-- The links are a family, and the history accounts for every process. -/
structure Recorded (h : History) : Prop where
  ids : h.table.IdsOk
  family : Family h.table.process
  creator_parent : ∀ c p r, h.creator c = some p → h.table.process c = some r → c ∉ h.collected →
    r.parent = some p ∨ r.parent = some initPid
  collected_old : ∀ c ∈ h.collected, c < h.table.nextId ∧ parentOf h.table.process c = none
  collected_nodup : h.collected.Nodup
  reaped_gone : ∀ r ∈ h.reaped, r.canReap = true ∧ r.id < h.table.nextId ∧
    h.table.process r.id = none ∧ r.addressSpace = h.space r.id
  reaped_nodup : (h.reaped.map ProcessControlBlock.id).Nodup
  accounted : ∀ id, id = initPid ∨ initPid < id ∧ id < h.table.nextId →
    (h.table.process id).isSome ∨ ∃ r ∈ h.reaped, r.id = id
  space_eq : ∀ id r, h.table.process id = some r → r.addressSpace = h.space id
  released_eq : h.taken ++ h.table.releasedSpaces =
    h.reaped.filterMap ProcessControlBlock.addressSpace

namespace Recorded

/-- A step that keeps the history and the processes, and at most makes init the parent of processes
that had one. -/
theorem of_same (hrec : Recorded h) {t : ProcessTable} (hids : t.IdsOk) (hfamily : Family t.process)
    (hnext : t.nextId = h.table.nextId) (hreleased : t.releasedSpaces = h.table.releasedSpaces)
    (hspace : ∀ id, (t.process id).map ProcessControlBlock.addressSpace =
      (h.table.process id).map ProcessControlBlock.addressSpace)
    (hparent : ∀ id, parentOf t.process id = parentOf h.table.process id ∨
      parentOf t.process id = some initPid ∧ parentOf h.table.process id ≠ none) :
    Recorded { h with table := t } := by
  have hold : ∀ id r, t.process id = some r → ∃ r', h.table.process id = some r' ∧
      r'.addressSpace = r.addressSpace := by
    intro id r hr
    have hmap := hspace id
    rw [hr, Option.map_some] at hmap
    exact Option.map_eq_some_iff.mp hmap.symm
  have hlive : ∀ id, (t.process id).isSome = (h.table.process id).isSome := by
    intro id
    have hmap := congrArg Option.isSome (hspace id)
    rwa [Option.isSome_map, Option.isSome_map] at hmap
  refine ⟨hids, hfamily, ?_, ?_, hrec.collected_nodup, ?_, hrec.reaped_nodup, ?_, ?_, ?_⟩
  · intro c p r hc hr hout
    obtain ⟨r', hr', -⟩ := hold c r hr
    rcases hparent c with heq | ⟨heq, -⟩
    · rw [parentOf_of_some hr, parentOf_of_some hr'] at heq
      rw [heq]
      exact hrec.creator_parent c p r' hc hr' hout
    · rw [parentOf_of_some hr] at heq
      exact Or.inr heq
  · intro c hmem
    obtain ⟨hlt, hnone⟩ := hrec.collected_old c hmem
    refine ⟨hnext ▸ hlt, ?_⟩
    rcases hparent c with heq | ⟨-, hsome⟩
    · exact heq.trans hnone
    · exact absurd hnone hsome
  · intro r hmem
    obtain ⟨hcan, hlt, hgone, hsp⟩ := hrec.reaped_gone r hmem
    refine ⟨hcan, hnext ▸ hlt, ?_, hsp⟩
    have hiff := hlive r.id
    rw [hgone] at hiff
    exact Option.isNone_iff_eq_none.mp (by simpa using hiff)
  · intro id hid
    rw [hlive id]
    exact hrec.accounted id (by rwa [← hnext])
  · intro id r hr
    obtain ⟨r', hr', heq⟩ := hold id r hr
    rw [← heq]
    exact hrec.space_eq id r' hr'
  · rw [hreleased]
    exact hrec.released_eq

/-- An edit of one record that keeps its links and its address space. -/
theorem of_edit (hrec : Recorded h) {α : Type}
    {edit : ProcessControlBlock → Except ProcessError (α × ProcessControlBlock)}
    (hkeep : ∀ r a r', edit r = .ok (a, r') → r'.id = r.id ∧ r'.parent = r.parent ∧
      r'.children = r.children ∧ r'.addressSpace = r.addressSpace)
    (hexit : ∀ r a r', h.table.process id = some r → edit r = .ok (a, r') →
      r'.exitStatus = r.exitStatus ∨ r.children = [] ∧ id ≠ initPid) :
    Recorded { h with table := (h.table.onRecord id edit).2 } := by
  rcases h.table.onRecord_cases id (fun r a r' hok => (hkeep r a r' hok).1) with
    ⟨e, heq⟩ | ⟨r, a, r', hr, hok, heq, hprocess⟩
  · rw [heq]
    exact hrec
  · obtain ⟨-, hparent, hchildren, hspace⟩ := hkeep r a r' hok
    rw [heq]
    refine hrec.of_same (hrec.ids.setProcess r') ?_ rfl rfl (fun q => ?_) (fun q => Or.inl ?_)
    · rw [hprocess]
      exact hrec.family.edit hr hparent hchildren (hexit r a r' hr hok)
    · rw [hprocess]
      by_cases hq : q = id
      · rw [hq, Function.update_self, hr, Option.map_some, Option.map_some, hspace]
      · rw [Function.update_of_ne hq]
    · rw [hprocess, parentOf_update, Option.bind_some, hparent, ← parentOf_of_some hr,
        Function.update_eq_self]

/-- An edit of one record that is about neither its links, its address space nor its exit. -/
theorem of_quiet (hrec : Recorded h) {α : Type}
    {edit : ProcessControlBlock → Except ProcessError (α × ProcessControlBlock)}
    (hkeep : ∀ r a r', edit r = .ok (a, r') → r'.id = r.id ∧ r'.parent = r.parent ∧
      r'.children = r.children ∧ r'.addressSpace = r.addressSpace ∧
      r'.exitStatus = r.exitStatus) :
    Recorded { h with table := (h.table.onRecord id edit).2 } := by
  refine hrec.of_edit (fun r a r' hok => ?_) fun r a r' _ hok => Or.inl ?_
  · obtain ⟨hid, hparent, hchildren, hspace, -⟩ := hkeep r a r' hok
    exact ⟨hid, hparent, hchildren, hspace⟩
  · exact (hkeep r a r' hok).2.2.2.2

/-- A new process, whose parent is its creator if it has one. -/
theorem of_insert (hrec : Recorded h) {t : ProcessTable} {parent space : Option ℕ} (hids : t.IdsOk)
    (hfamily : Family t.process) (hnext : t.nextId = h.table.nextId + 1)
    (hreleased : t.releasedSpaces = h.table.releasedSpaces)
    (hnew : t.process h.table.nextId = some r) (hspace : r.addressSpace = space)
    (hparent : r.parent = parent)
    (hold : ∀ id, id ≠ h.table.nextId →
      (t.process id).map (fun r => (r.addressSpace, r.parent)) =
        (h.table.process id).map fun r => (r.addressSpace, r.parent)) :
    Recorded { h with
      table := t
      creator := Function.update h.creator h.table.nextId parent
      space := Function.update h.space h.table.nextId space } := by
  set n := h.table.nextId with hn
  -- the record of an older process keeps its address space and its parent
  have holder : ∀ id r', id ≠ n → t.process id = some r' → ∃ r'', h.table.process id = some r'' ∧
      r''.addressSpace = r'.addressSpace ∧ r''.parent = r'.parent := by
    intro id r' hne hr'
    have hmap := hold id hne
    rw [hr', Option.map_some] at hmap
    obtain ⟨r'', hr'', heq⟩ := Option.map_eq_some_iff.mp hmap.symm
    exact ⟨r'', hr'', congrArg Prod.fst heq, congrArg Prod.snd heq⟩
  have hlive : ∀ id, id ≠ n → (t.process id).isSome = (h.table.process id).isSome := by
    intro id hne
    have hmap := congrArg Option.isSome (hold id hne)
    rwa [Option.isSome_map, Option.isSome_map] at hmap
  refine ⟨hids, hfamily, ?_, ?_, hrec.collected_nodup, ?_, hrec.reaped_nodup, ?_, ?_, ?_⟩
  · intro c p r' (hc : Function.update h.creator n parent c = some p)
      (hr' : t.process c = some r') hout
    by_cases hcn : c = n
    · subst hcn
      rw [Function.update_self] at hc
      rw [hnew] at hr'
      cases hr'
      exact Or.inl (hparent.trans hc)
    · rw [Function.update_of_ne hcn] at hc
      obtain ⟨r'', hr'', -, heq⟩ := holder c r' hcn hr'
      rw [← heq]
      exact hrec.creator_parent c p r'' hc hr'' hout
  · intro c hmem
    obtain ⟨hlt, hnone⟩ := hrec.collected_old c hmem
    have hcn : c ≠ n := hlt.ne
    refine ⟨hnext ▸ hlt.trans (Nat.lt_succ_self _), ?_⟩
    cases hc : t.process c with
    | none => rw [parentOf, hc, Option.bind_none]
    | some r' =>
      obtain ⟨r'', hr'', -, heq⟩ := holder c r' hcn hc
      rw [parentOf_of_some hr'', heq] at hnone
      rw [parentOf_of_some hc, hnone]
  · intro r' hmem
    obtain ⟨hcan, hlt, hgone, hsp⟩ := hrec.reaped_gone r' hmem
    have hne : r'.id ≠ n := hlt.ne
    refine ⟨hcan, hnext ▸ hlt.trans (Nat.lt_succ_self _), ?_, ?_⟩
    · show t.process r'.id = none
      have hiff := hlive r'.id hne
      rw [hgone] at hiff
      exact Option.isNone_iff_eq_none.mp (by simpa using hiff)
    · show r'.addressSpace = Function.update h.space n space r'.id
      rw [Function.update_of_ne hne, hsp]
  · intro id (hid : id = initPid ∨ initPid < id ∧ id < t.nextId)
    show (t.process id).isSome = true ∨ ∃ r' ∈ h.reaped, r'.id = id
    by_cases hne : id = n
    · left
      rw [hne, hnew]
      rfl
    · rw [hlive id hne]
      exact hrec.accounted id (hid.imp_right fun hlt => ⟨hlt.1, by omega⟩)
  · intro id r' (hr' : t.process id = some r')
    show r'.addressSpace = Function.update h.space n space id
    by_cases hne : id = n
    · subst hne
      rw [hnew] at hr'
      cases hr'
      rw [Function.update_self, hspace]
    · obtain ⟨r'', hr'', heq, -⟩ := holder id r' hne hr'
      rw [Function.update_of_ne hne, ← heq]
      exact hrec.space_eq id r'' hr''
  · show h.taken ++ t.releasedSpaces = _
    rw [hreleased]
    exact hrec.released_eq

/-- The parent of a collected child lets it go. -/
theorem of_disown (hrec : Recorded h) {rp rc : ProcessControlBlock} {t : ProcessTable}
    (hp : h.table.process p = some rp) (hc : h.table.process child = some rc)
    (hparent : rc.parent = some p) (heq : h.table.disown p child = (.ok (), t)) :
    child ∉ h.collected ∧ Recorded { h with table := t, collected := h.collected ++ [child] } := by
  have hlink : parentOf h.table.process child = some p := (parentOf_of_some hc).trans hparent
  have hne : child ≠ p := (hrec.family.parent_lt child p hlink).ne'
  obtain ⟨t', heq', hmap, hnext, hreleased, hprocess⟩ := ProcessTable.disown_eq hp hc hne
  rw [heq] at heq'
  cases heq'
  have hnew : child ∉ h.collected := fun hmem => by
    rw [(hrec.collected_old child hmem).2] at hlink
    cases hlink
  have hparents : parentOf t.process = Function.update (parentOf h.table.process) child none := by
    rw [hprocess, parentOf_update, parentOf_update, Option.bind_some, Option.bind_some,
      ← parentOf_of_some hp, Function.update_eq_self]
  -- both records keep their address space
  have hspaces : ∀ id, (t.process id).map ProcessControlBlock.addressSpace =
      (h.table.process id).map ProcessControlBlock.addressSpace := by
    intro id
    rw [hprocess]
    by_cases hqc : id = child
    · rw [hqc, Function.update_self, hc]
      rfl
    · rw [Function.update_of_ne hqc]
      by_cases hqp : id = p
      · rw [hqp, Function.update_self, hp]
        rfl
      · rw [Function.update_of_ne hqp]
  have hold : ∀ id r, t.process id = some r → ∃ r', h.table.process id = some r' ∧
      r'.addressSpace = r.addressSpace := by
    intro id r hr
    have hsp := hspaces id
    rw [hr, Option.map_some] at hsp
    exact Option.map_eq_some_iff.mp hsp.symm
  have hlive : ∀ id, (t.process id).isSome = (h.table.process id).isSome := by
    intro id
    have hsp := congrArg Option.isSome (hspaces id)
    rwa [Option.isSome_map, Option.isSome_map] at hsp
  refine ⟨hnew, hrec.ids.of_map_eq hmap hnext, ?_, ?_, ?_, ?_, ?_, hrec.reaped_nodup, ?_, ?_, ?_⟩
  · rw [hprocess]
    exact hrec.family.disown hp hc hparent
  · intro c q r hcr hr hout
    obtain ⟨r', hr', -⟩ := hold c r hr
    have hcc : c ≠ child := fun hcc => hout (by simp [hcc])
    have hpar := congrFun hparents c
    rw [Function.update_of_ne hcc, parentOf_of_some hr, parentOf_of_some hr'] at hpar
    rw [hpar]
    exact hrec.creator_parent c q r' hcr hr' fun hin => hout (List.mem_append_left _ hin)
  · intro c hmem
    rw [hparents, hnext]
    rcases List.mem_append.mp hmem with hin | hin
    · obtain ⟨hlt, hnone⟩ := hrec.collected_old c hin
      have hcc : c ≠ child := by
        rintro rfl
        exact hnew hin
      exact ⟨hlt, by rw [Function.update_of_ne hcc, hnone]⟩
    · rw [List.mem_singleton.mp hin]
      exact ⟨hrec.ids.lt_of_process hc, Function.update_self ..⟩
  · rw [← List.concat_eq_append]
    exact hrec.collected_nodup.concat hnew
  · intro r hmem
    obtain ⟨hcan, hlt, hgone, hsp⟩ := hrec.reaped_gone r hmem
    refine ⟨hcan, hnext ▸ hlt, ?_, hsp⟩
    have hiff := hlive r.id
    rw [hgone] at hiff
    exact Option.isNone_iff_eq_none.mp (by simpa using hiff)
  · intro id hid
    rw [hlive id]
    exact hrec.accounted id (by rwa [← hnext])
  · intro id r hr
    obtain ⟨r', hr', hsp⟩ := hold id r hr
    rw [← hsp]
    exact hrec.space_eq id r' hr'
  · rw [hreleased]
    exact hrec.released_eq

/-- `reap_if_empty` accounts for the record it removes. -/
theorem of_reap (hrec : Recorded h) (id : ℕ) :
    Recorded { h with
      table := (h.table.reapIfEmpty id).2, reaped := h.reaped ++ reapedBy h.table id } := by
  rcases ProcessTable.reapIfEmpty_cases hrec.ids hrec.family id with
    ⟨hnone, heq⟩ | ⟨r, hr, hcan, -, hids, hnext, hreleased, hprocess⟩
  · rw [heq, reapedBy, hnone, Option.toList_none, List.append_nil]
    exact hrec
  · have hby : reapedBy h.table id = [r] := by
      rw [reapedBy, hr, Option.filter_some, if_pos hcan, Option.toList_some]
    obtain ⟨hparent, hstatus⟩ : r.parent = none ∧ r.exitStatus.isSome := by
      simp only [ProcessControlBlock.canReap, Bool.and_eq_true, Option.isNone_iff_eq_none] at hcan
      exact ⟨hcan.1.1.1.1, hcan.1.1.2⟩
    have hid : r.id = id := ProcessTable.process_id hr
    have hold : ∀ q r', (h.table.reapIfEmpty id).2.process q = some r' →
        q ≠ id ∧ h.table.process q = some r' := by
      intro q r' hr'
      rw [hprocess] at hr'
      by_cases hq : q = id
      · rw [hq, Function.update_self] at hr'
        cases hr'
      · rw [Function.update_of_ne hq] at hr'
        exact ⟨hq, hr'⟩
    have hparents : parentOf (h.table.reapIfEmpty id).2.process = parentOf h.table.process := by
      rw [hprocess, parentOf_update, Option.bind_none, ← hparent, ← parentOf_of_some hr,
        Function.update_eq_self]
    rw [hby]
    refine ⟨hids, ?_, ?_, ?_, hrec.collected_nodup, ?_, ?_, ?_, ?_, ?_⟩
    · rw [hprocess]
      exact hrec.family.remove hr hparent hstatus
    · intro c q r' hcr hr' hout
      exact hrec.creator_parent c q r' hcr (hold c r' hr').2 hout
    · intro c hmem
      rw [hparents, hnext]
      exact hrec.collected_old c hmem
    · intro r' hmem
      rw [hnext, hprocess]
      rcases List.mem_append.mp hmem with hin | hin
      · obtain ⟨hcan', hlt, hgone, hsp⟩ := hrec.reaped_gone r' hin
        refine ⟨hcan', hlt, ?_, hsp⟩
        by_cases hq : r'.id = id
        · rw [hq, Function.update_self]
        · rw [Function.update_of_ne hq, hgone]
      · rw [List.mem_singleton.mp hin, hid]
        exact ⟨hcan, hrec.ids.lt_of_process hr, Function.update_self .., hrec.space_eq id r hr⟩
    · rw [List.map_append, List.map_singleton, ← List.concat_eq_append]
      refine hrec.reaped_nodup.concat fun hmem => ?_
      obtain ⟨r', hin, heq⟩ := List.mem_map.mp hmem
      have hgone := (hrec.reaped_gone r' hin).2.2.1
      rw [heq, hid, hr] at hgone
      cases hgone
    · intro q hq
      rw [hnext] at hq
      by_cases heq : q = id
      · exact Or.inr ⟨r, by simp, hid.trans heq.symm⟩
      · rcases hrec.accounted q hq with hlive | ⟨r', hin, hrid⟩
        · left
          rw [hprocess, Function.update_of_ne heq]
          exact hlive
        · exact Or.inr ⟨r', List.mem_append_left _ hin, hrid⟩
    · intro q r' hr'
      exact hrec.space_eq q r' (hold q r' hr').2
    · rw [hreleased, ← List.append_assoc, hrec.released_eq, List.filterMap_append]
      cases hsp : r.addressSpace <;> simp [hsp]

/-! ## One step -/

theorem step_create (hrec : Recorded h) (space : Option ℕ) (thread : ℕ) :
    Recorded (h.perform (.create space thread)) := by
  obtain ⟨hids, hprocess⟩ := hrec.ids.create space thread
  have hfamily : Family (h.table.create space thread).2.process := by
    rw [hprocess]
    exact hrec.family.insert hrec.ids.next_fresh rfl rfl
  have hnew : (h.table.create space thread).2.process h.table.nextId =
      some (.new h.table.nextId none space thread) := by
    rw [hprocess, Function.update_self]
  have hinsert := hrec.of_insert hids hfamily rfl rfl hnew rfl rfl fun id hne => by
    rw [hprocess, Function.update_of_ne hne]
  exact hinsert

theorem step_createChild (hrec : Recorded h) (space : Option ℕ) (thread : ℕ)
    (hrunning : ∀ r, h.table.process p = some r → r.exitStatus = none) :
    Recorded (h.perform (.createChild p space thread)) := by
  cases hp : h.table.process p with
  | none =>
    have heq : h.table.createChild p space thread = (.error .unknownProcess, h.table) := by
      simp [ProcessTable.createChild, hp]
    simpa only [perform, tableAfter, heq] using hrec
  | some rp =>
    obtain ⟨t, heq, hids, hnext, hreleased, hprocess⟩ := hrec.ids.createChild hp space thread
    have hne : p ≠ h.table.nextId := (hrec.ids.lt_of_process hp).ne
    -- first a process without relatives, then the parent adopts it
    have hinserted : Family (Function.update h.table.process h.table.nextId
        (some (.new h.table.nextId none space thread))) :=
      hrec.family.insert hrec.ids.next_fresh rfl rfl
    have hparent : Function.update h.table.process h.table.nextId
        (some (.new h.table.nextId none space thread)) p = some rp := by
      rw [Function.update_of_ne hne, hp]
    have hfamily : Family t.process := by
      rw [hprocess]
      exact hinserted.adopt hparent (Function.update_self ..) rfl (hrunning rp hp)
        (hrec.ids.lt_of_process hp) hrec.ids.next.ne'
    have hnew : t.process h.table.nextId = some (.new h.table.nextId (some p) space thread) := by
      rw [hprocess, Function.update_of_ne hne.symm, Function.update_self]
    have hinsert : Recorded { h with
        table := t
        creator := Function.update h.creator h.table.nextId (some p)
        space := Function.update h.space h.table.nextId space } := by
      refine hrec.of_insert hids hfamily hnext hreleased hnew rfl rfl fun id hid => ?_
      rw [hprocess]
      by_cases hidp : id = p
      · rw [hidp, Function.update_self, hp]
        rfl
      · rw [Function.update_of_ne hidp, Function.update_of_ne hid, Function.update_of_ne hid]
    simpa only [perform, tableAfter, heq] using hinsert

theorem step_reparentChildren (hrec : Recorded h) (id : ℕ) :
    Recorded (h.perform (.reparentChildren id)) := by
  by_cases hinit : id = initPid
  · have heq : h.table.reparentChildren id initPid = h.table := by
      simp [ProcessTable.reparentChildren, hinit]
    simpa only [perform, tableAfter, heq] using hrec
  cases hr : h.table.process id with
  | none =>
    have heq : h.table.reparentChildren id initPid = h.table := by
      simp [ProcessTable.reparentChildren, hinit, hr]
    simpa only [perform, tableAfter, heq] using hrec
  | some r =>
    have hout : initPid ∉ r.children := fun hmem => by
      rw [hrec.family.children_iff id r _ hr, hrec.family.init_parentless] at hmem
      cases hmem
    have hself : id ∉ r.children := fun hmem =>
      absurd (hrec.family.parent_lt id id ((hrec.family.children_iff id r id hr).mp hmem))
        (lt_irrefl _)
    obtain ⟨ri, hri, -, -⟩ := hrec.family.init_live
    obtain ⟨hmap, hnext, hreleased, hprocess⟩ := ProcessTable.reparentChildren_eq hr hinit
      (by rw [hri]; rfl) hout hself
    show Recorded { h with table := h.table.reparentChildren id initPid }
    refine hrec.of_same (hrec.ids.of_map_eq hmap hnext) ?_ hnext hreleased (fun q => ?_) fun q => ?_
    · rw [hprocess]
      exact hrec.family.reparent hr hinit
    · rw [hprocess, Family.reparented, Option.map_map]
      rfl
    · rw [hprocess, hrec.family.parentOf_reparented hr]
      split_ifs with hmem
      · refine Or.inr ⟨rfl, ?_⟩
        rw [(hrec.family.children_iff id r q hr).mp hmem]
        exact Option.some_ne_none id
      · exact Or.inl rfl

/-- What a successful `wait_child` finds: the caller is the child's parent and the child has
finished. -/
theorem waitChild_ok (hrec : Recorded h) {status : ℤ}
    (hok : (h.table.waitChild p child).1 = .ok status) :
    ∃ rp rc t, h.table.process p = some rp ∧ h.table.process child = some rc ∧
      rc.parent = some p ∧ rc.threads = [] ∧ rc.exitStatus = some status ∧
      h.table.disown p child = (.ok (), t) ∧
      (h.table.waitChild p child).2 = (t.reapIfEmpty child).2 := by
  unfold ProcessTable.waitChild at hok ⊢
  cases hc : h.table.process child with
  | none => simp only [hc, reduceCtorEq] at hok
  | some rc =>
    simp only [hc] at hok ⊢
    split_ifs at hok with hguard
    simp only [ne_eq, Bool.or_eq_true, decide_eq_true_eq, not_or, not_not, Bool.not_eq_true,
      Bool.not_eq_false', List.isEmpty_iff] at hguard
    obtain ⟨hparent, hthreads⟩ := hguard
    have hlink : parentOf h.table.process child = some p := (parentOf_of_some hc).trans hparent
    obtain ⟨rp, hp⟩ := hrec.family.parent_live child p hlink
    have hne : child ≠ p := (hrec.family.parent_lt child p hlink).ne'
    obtain ⟨t, heq, -⟩ := ProcessTable.disown_eq hp hc hne
    cases hstatus : rc.exitStatus with
    | none => simp only [hstatus, reduceCtorEq] at hok
    | some status' =>
      simp only [hstatus, heq, Except.ok.injEq] at hok
      subst hok
      refine ⟨rp, rc, t, hp, rfl, hparent, hthreads, hstatus, heq, ?_⟩
      simp [hparent, hthreads, heq]

/-- A failed `wait_child` changes nothing. -/
theorem waitChild_error (hrec : Recorded h) {e : ProcessError}
    (herror : (h.table.waitChild p child).1 = .error e) :
    (h.table.waitChild p child).2 = h.table := by
  unfold ProcessTable.waitChild at herror ⊢
  cases hc : h.table.process child with
  | none => rfl
  | some rc =>
    simp only [hc] at herror ⊢
    split_ifs with hguard
    · rfl
    cases hstatus : rc.exitStatus with
    | none => rfl
    | some status =>
      -- the parent is alive, so its ownership ends without an error
      simp only [ne_eq, Bool.or_eq_true, decide_eq_true_eq, not_or, not_not, Bool.not_eq_true,
        Bool.not_eq_false', List.isEmpty_iff] at hguard
      have hlink : parentOf h.table.process child = some p :=
        (parentOf_of_some hc).trans hguard.1
      obtain ⟨rp, hp⟩ := hrec.family.parent_live child p hlink
      obtain ⟨t, heq, -⟩ := ProcessTable.disown_eq hp hc (hrec.family.parent_lt child p hlink).ne'
      simp [hguard.1, hguard.2, hstatus, heq] at herror

theorem step_waitChild (hrec : Recorded h) (p child : ℕ) :
    Recorded (h.perform (.waitChild p child)) := by
  cases hok : (h.table.waitChild p child).1 with
  | error e =>
    have htable := hrec.waitChild_error hok
    simpa only [perform, tableAfter, hok, htable] using hrec
  | ok status =>
    obtain ⟨rp, rc, t, hp, hc, hparent, -, -, heq, htable⟩ := hrec.waitChild_ok hok
    obtain ⟨-, hdisowned⟩ := hrec.of_disown hp hc hparent heq
    have hreaped := hdisowned.of_reap child
    simpa only [perform, tableAfter, hok, htable, heq] using hreaped

/-- Every allowed operation keeps the invariant. -/
theorem step (hrec : Recorded h) {op : Op} (hstep : Step h op h') : Recorded h' := by
  obtain ⟨hallowed, rfl⟩ := hstep
  cases op with
  | create space thread => exact hrec.step_create space thread
  | createChild parent space thread => exact hrec.step_createChild space thread hallowed
  | addThread process thread =>
    refine hrec.of_quiet fun r a r' hok => ?_
    split_ifs at hok
    cases hok
    exact ⟨rfl, rfl, rfl, rfl, rfl⟩
  | removeThread process thread =>
    refine hrec.of_quiet fun r a r' hok => ?_
    split_ifs at hok
    cases hok
    exact ⟨rfl, rfl, rfl, rfl, rfl⟩
  | reparentChildren process => exact hrec.step_reparentChildren process
  | exit process status =>
    refine hrec.of_edit (fun r a r' hok => ?_) fun r a r' hr hok => Or.inr ?_
    · split_ifs at hok
      cases hok
      exact ⟨rfl, rfl, rfl, rfl⟩
    · split_ifs at hok with hnone
      exact ⟨hallowed.2 r hr (by simpa using hnone), hallowed.1⟩
  | waitChild parent child => exact hrec.step_waitChild parent child
  | retain process =>
    refine hrec.of_quiet fun r a r' hok => ?_
    cases hok
    exact ⟨rfl, rfl, rfl, rfl, rfl⟩
  | release process =>
    refine hrec.of_quiet fun r a r' hok => ?_
    split_ifs at hok
    cases hok
    exact ⟨rfl, rfl, rfl, rfl, rfl⟩
  | addChildWaiter child waiter =>
    refine hrec.of_quiet fun r a r' hok => ?_
    split_ifs at hok
    cases hok
    exact ⟨rfl, rfl, rfl, rfl, rfl⟩
  | removeChildWaiter child waiter =>
    refine hrec.of_quiet fun r a r' hok => ?_
    split_ifs at hok
    cases hok
    exact ⟨rfl, rfl, rfl, rfl, rfl⟩
  | reapIfEmpty process => exact hrec.of_reap process
  | takeReleasedSpaces =>
    refine ⟨⟨hrec.ids.nodup, hrec.ids.lt, hrec.ids.next⟩, hrec.family, hrec.creator_parent,
      hrec.collected_old, hrec.collected_nodup, hrec.reaped_gone, hrec.reaped_nodup,
      hrec.accounted, hrec.space_eq, ?_⟩
    exact (List.append_nil _).trans hrec.released_eq

end Recorded

/-! ## What holds over whole runs -/

/-- The table once init is created holds init alone. -/
theorem Recorded.initial (hinit : Initial h) : Recorded h := by
  obtain ⟨thread, rfl⟩ := hinit
  set t : ProcessTable := (({} : ProcessTable).createInit thread).2 with ht
  have hprocesses : t.processes = [.new initPid none none thread] := rfl
  have hprocess : ∀ id r, t.process id = some r →
      id = initPid ∧ r = .new initPid none none thread := by
    intro id r hr
    have hmem := List.mem_of_find?_eq_some hr
    rw [hprocesses, List.mem_singleton] at hmem
    exact ⟨by rw [← ProcessTable.process_id hr, hmem]; rfl, hmem⟩
  have hlive : t.process initPid = some (.new initPid none none thread) := rfl
  -- nobody has a parent
  have hparents : ∀ id, parentOf t.process id = none := by
    intro id
    cases hr : t.process id with
    | none => rw [parentOf, hr, Option.bind_none]
    | some r =>
      rw [parentOf_of_some hr, (hprocess id r hr).2]
      rfl
  have hfamily : Family t.process := by
    refine ⟨fun p r child hr => ?_, fun p r hr => ?_, fun child p hp => ?_, fun child p hp => ?_,
      fun p r hr _ => ?_, ⟨_, hlive, rfl, rfl⟩⟩
    · rw [(hprocess p r hr).2, hparents]
      simp [ProcessControlBlock.new]
    · rw [(hprocess p r hr).2]
      exact List.nodup_nil
    · rw [hparents] at hp
      cases hp
    · rw [hparents] at hp
      cases hp
    · rw [(hprocess p r hr).2]
      rfl
  refine ⟨⟨?_, ?_, ?_⟩, hfamily, (fun _ _ _ hc => absurd hc (by simp)), (fun _ hmem => absurd hmem (by simp)),
    List.nodup_nil, (fun _ hmem => absurd hmem (by simp)), List.nodup_nil, fun id hid => ?_,
    fun id r hr => ?_, rfl⟩
  · exact List.nodup_singleton _
  · intro r hr
    rw [hprocesses, List.mem_singleton] at hr
    rw [hr]
    exact Nat.lt_succ_self initPid
  · exact Nat.lt_succ_self initPid
  · left
    have hnext : t.nextId = 2 := rfl
    have heq : id = initPid := by
      rcases hid with heq | ⟨hgt, hlt⟩
      · exact heq
      · rw [hnext] at hlt
        unfold initPid at hgt
        omega
    rw [heq, hlive]
    rfl
  · rw [(hprocess id r hr).2]
    rfl

/-- What the table promises over a run. -/
structure Consistent (h : History) : Prop where
  /-- A process is in a child list exactly if its parent field names the owner of the list. -/
  children_iff : ∀ p r child, h.table.process p = some r →
    (child ∈ r.children ↔ ∃ rc, h.table.process child = some rc ∧ rc.parent = some p)
  children_nodup : ∀ p r, h.table.process p = some r → r.children.Nodup
  one_list : ∀ p q rp rq child, h.table.process p = some rp → h.table.process q = some rq →
    child ∈ rp.children → child ∈ rq.children → p = q
  acyclic : Forest.Grounded (parentOf h.table.process)
  collected_once : h.collected.Nodup
  /-- Only the current parent collects a status, and only one that was not collected before. -/
  collected_by_parent : ∀ p child status, (h.table.waitChild p child).1 = .ok status →
    child ∉ h.collected ∧ ∃ rc, h.table.process child = some rc ∧ rc.parent = some p ∧
      rc.exitStatus = some status ∧ rc.threads = []
  /-- Every process created so far is alive or was reaped once. -/
  reaped_iff : ∀ id, id = initPid ∨ initPid < id ∧ id < h.table.nextId →
    (h.table.process id = none ↔ ∃ r ∈ h.reaped, r.id = id)
  reaped_once : (h.reaped.map ProcessControlBlock.id).Nodup
  /-- A reaped process had exited and nothing kept it alive. -/
  reaped_finished : ∀ r ∈ h.reaped, r.exitStatus.isSome ∧ r.threads = [] ∧ r.parent = none ∧
    r.references = 0 ∧ r.childWaiters = []
  /-- The spaces released so far are those of the reaped processes, one by one. -/
  released_eq : h.taken ++ h.table.releasedSpaces = h.reaped.filterMap fun r => h.space r.id
  released_once : (∀ id id' space, h.space id = some space → h.space id' = some space → id = id') →
    (h.taken ++ h.table.releasedSpaces).Nodup
  /-- An uncollected process whose creator has exited is a child of init, which collects its status
  once it has finished. -/
  orphan_collectible : ∀ c p r, h.creator c = some p → h.table.process c = some r →
    c ∉ h.collected → (∀ rp, h.table.process p = some rp → rp.exitStatus ≠ none) →
    r.parent = some initPid ∧ (∃ ri, h.table.process initPid = some ri ∧ c ∈ ri.children) ∧
      ∀ status, r.exitStatus = some status → r.threads = [] →
        (h.table.waitChild initPid c).1 = .ok status

/-- A finished child is collected by its parent. -/
theorem Recorded.waitChild_of_parent (hrec : Recorded h) {rc : ProcessControlBlock} {status : ℤ}
    (hc : h.table.process child = some rc) (hparent : rc.parent = some p)
    (hstatus : rc.exitStatus = some status) (hthreads : rc.threads = []) :
    (h.table.waitChild p child).1 = .ok status := by
  have hlink : parentOf h.table.process child = some p := (parentOf_of_some hc).trans hparent
  obtain ⟨rp, hp⟩ := hrec.family.parent_live child p hlink
  obtain ⟨t, heq, -⟩ := ProcessTable.disown_eq hp hc (hrec.family.parent_lt child p hlink).ne'
  simp [ProcessTable.waitChild, hc, hparent, hthreads, hstatus, heq]

theorem Recorded.consistent (hrec : Recorded h) : Consistent h where
  children_iff p r child hr := by
    rw [hrec.family.children_iff p r child hr]
    exact Option.bind_eq_some_iff
  children_nodup := hrec.family.children_nodup
  one_list p q rp rq child hp hq hmem hmem' := by
    rw [hrec.family.children_iff p rp child hp] at hmem
    rw [hrec.family.children_iff q rq child hq, hmem] at hmem'
    exact Option.some.inj hmem'
  acyclic := hrec.family.grounded
  collected_once := hrec.collected_nodup
  collected_by_parent p child status hok := by
    obtain ⟨rp, rc, t, hp, hc, hparent, hthreads, hstatus, heq, -⟩ := hrec.waitChild_ok hok
    exact ⟨(hrec.of_disown hp hc hparent heq).1, rc, hc, hparent, hstatus, hthreads⟩
  reaped_iff id hid := by
    constructor
    · intro hnone
      rcases hrec.accounted id hid with hlive | hreaped
      · rw [hnone] at hlive
        cases hlive
      · exact hreaped
    · rintro ⟨r, hmem, rfl⟩
      exact (hrec.reaped_gone r hmem).2.2.1
  reaped_once := hrec.reaped_nodup
  reaped_finished r hmem := by
    have hcan := (hrec.reaped_gone r hmem).1
    simp only [ProcessControlBlock.canReap, Bool.and_eq_true, Option.isNone_iff_eq_none,
      List.isEmpty_iff, beq_iff_eq] at hcan
    obtain ⟨⟨⟨⟨hparent, hthreads⟩, hstatus⟩, hrefs⟩, hwaiters⟩ := hcan
    exact ⟨hstatus, hthreads, hparent, hrefs, hwaiters⟩
  released_eq := by
    rw [hrec.released_eq]
    exact List.filterMap_congr fun r hmem => (hrec.reaped_gone r hmem).2.2.2
  released_once hdistinct := by
    rw [hrec.released_eq]
    -- two reaped records have different ids, and so different spaces
    refine List.pairwise_filterMap.mpr ?_
    refine (List.pairwise_map.mp hrec.reaped_nodup).imp_of_mem fun {r r'} hmem hmem' hne => ?_
    rintro space hspace space' hspace' rfl
    rw [(hrec.reaped_gone r hmem).2.2.2] at hspace
    rw [(hrec.reaped_gone r' hmem').2.2.2] at hspace'
    exact hne (hdistinct r.id r'.id space hspace hspace')
  orphan_collectible c p r hc hr hout hexited := by
    have hparent : r.parent = some initPid := by
      rcases hrec.creator_parent c p r hc hr hout with hp | hp
      · -- a process that has exited is nobody's parent
        obtain ⟨rp, hrp, hstatus, -⟩ :=
          hrec.family.parent_running ((parentOf_of_some hr).trans hp)
        exact absurd hstatus (hexited rp hrp)
      · exact hp
    obtain ⟨ri, hri, -, hmem⟩ := hrec.family.parent_running ((parentOf_of_some hr).trans hparent)
    exact ⟨hparent, ⟨ri, hri, hmem⟩, fun status hstatus hthreads =>
      hrec.waitChild_of_parent hr hparent hstatus hthreads⟩

/-- In every state of every run the table is consistent. -/
theorem reachable_familyConsistent (hrun : Run.Reachable Initial Step h) : Consistent h :=
  Recorded.consistent <| hrun.invariant (fun _ hinit => Recorded.initial hinit)
    fun _ _ _ hrec hstep => hrec.step hstep

/-- Init creates a child with an address space, the child exits and loses its thread. -/
def childFinished : History :=
  let h : History := { table := (({} : ProcessTable).createInit 1).2 }
  (((h.perform (.createChild initPid (some 42) 2)).perform (.reparentChildren 2)).perform
    (.exit 2 7)).perform (.removeThread 2 2)

theorem reachable_perform (hrun : Run.Reachable Initial Step h) (op : Op) (hallowed : h.Allowed op) :
    Run.Reachable Initial Step (h.perform op) :=
  .next hrun ⟨hallowed, rfl⟩

theorem reachable_childFinished : Run.Reachable Initial Step childFinished := by
  have hinit : Run.Reachable Initial Step { table := (({} : ProcessTable).createInit 1).2 } :=
    .start ⟨1, rfl⟩
  have hchild := reachable_perform hinit (.createChild initPid (some 42) 2) (by
    intro r hr
    cases hr
    rfl)
  have hreparent := reachable_perform hchild (.reparentChildren 2) trivial
  have hexit := reachable_perform hreparent (.exit 2 7) ⟨by decide, by
    intro r hr _
    cases hr
    rfl⟩
  exact reachable_perform hexit (.removeThread 2 2) trivial

/-- Init collects the child, which releases its address space. -/
theorem reachable_familyConsistent_childCollected :
    Consistent (childFinished.perform (.waitChild initPid 2)) ∧
      (childFinished.perform (.waitChild initPid 2)).table.releasedSpaces = [42] :=
  ⟨reachable_familyConsistent (reachable_perform reachable_childFinished (.waitChild initPid 2) trivial),
    by decide⟩

end History

end SaeOS.Process
