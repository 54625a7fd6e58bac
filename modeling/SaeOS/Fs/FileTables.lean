import Mathlib.Order.Bounds.Basic
import SaeOS.Fs.File
import SaeOS.Lib.Run

/-!
# Descriptor tables and the open files they share

The tables of all processes, with the open files behind them. A run opens files, duplicates and removes
descriptors and forks tables; its log says which descriptors descend from which open.

In every run an operation changes the one descriptor it is about, and two descriptors move each other's
offset exactly when they descend from the same open (`reachable_correct`).
-/

namespace SaeOS.Fs

/-! ## Tables as functions -/

namespace FileTable

/-- The open file behind a descriptor. -/
def number (table : FileTable) (fd : ℕ) : Option ℕ :=
  (table.slots[fd]?).join

/-- `fd` is the lowest descriptor not in use. -/
def LowestFree (table : FileTable) (fd : ℕ) : Prop :=
  IsLeast {fd | table.number fd = none} fd

/-- No table is longer than the limit. -/
def Bounded (table : FileTable) : Prop :=
  table.slots.length ≤ maxFds

variable {table table' : FileTable} {fd fd' file : ℕ} {e : Errno}

theorem number_eq_none_of_le (h : table.slots.length ≤ fd) : table.number fd = none := by
  rw [number, List.getElem?_eq_none h, Option.join_none]

theorem get_eq (table : FileTable) (fd : ℕ) : table.get fd =
    match table.number fd with
    | some file => .ok file
    | none => .error .EBADF := by
  rw [get, number]
  rcases table.slots[fd]? with _ | _ | file <;> rfl

theorem get_eq_ok (h : table.get fd = .ok file) : table.number fd = some file := by
  rw [get_eq] at h
  split at h
  · rename_i hnumber
    rw [hnumber, Except.ok.inj h]
  · contradiction

/-- Setting a slot within the table changes one descriptor. -/
theorem number_set {slots : List (Option ℕ)} (hlt : fd < slots.length) (value : Option ℕ) :
    number ⟨slots.set fd value⟩ = Function.update (number ⟨slots⟩) fd value := by
  funext fd'
  rw [number]
  by_cases heq : fd' = fd
  · subst heq
    rw [List.getElem?_set_self hlt, Option.join_some, Function.update_self]
  · rw [List.getElem?_set_ne (Ne.symm heq), Function.update_of_ne heq, number]

/-- Free slots at the end say nothing. -/
theorem number_rdropWhile (slots : List (Option ℕ)) :
    number ⟨slots.rdropWhile Option.isNone⟩ = number ⟨slots⟩ := by
  induction slots using List.reverseRecOn with
  | nil => rfl
  | append_singleton slots slot ih =>
    cases slot with
    | some file => rw [List.rdropWhile_concat_neg _ _ _ (by simp)]
    | none =>
      rw [List.rdropWhile_concat_pos _ _ _ rfl, ih]
      funext fd
      rw [number, number]
      rcases lt_trichotomy fd slots.length with hlt | heq | hgt
      · rw [List.getElem?_append_left hlt]
      · subst heq
        rw [List.getElem?_eq_none le_rfl, List.getElem?_concat_length]
        rfl
      · rw [List.getElem?_eq_none hgt.le, List.getElem?_eq_none (by rw [List.length_append, List.length_singleton]; omega)]

theorem number_append_replicate (slots : List (Option ℕ)) (n : ℕ) :
    number ⟨slots ++ List.replicate n none⟩ = number ⟨slots⟩ := by
  funext fd
  rw [number, number]
  by_cases hlt : fd < slots.length
  · rw [List.getElem?_append_left hlt]
  · rw [List.getElem?_append_right (not_lt.mp hlt), List.getElem?_eq_none (not_lt.mp hlt),
      List.getElem?_replicate]
    split <;> rfl

/-! ## Operations -/

/-- `insert` takes the lowest free descriptor, and changes no other. -/
theorem insert_ok (hbound : table.Bounded) (h : table.insert file = .ok (fd, table')) :
    table.LowestFree fd ∧ table'.number = Function.update table.number fd (some file) ∧
      table'.Bounded := by
  unfold insert at h
  split at h
  · rename_i index hindex
    obtain ⟨rfl, rfl⟩ := Prod.mk.inj (Except.ok.inj h)
    obtain ⟨hlt, hnone, hbefore⟩ := List.findIdx?_eq_some_iff_getElem.mp hindex
    refine ⟨⟨?_, fun other hother => ?_⟩, number_set hlt _, ?_⟩
    · rw [Set.mem_ofPred_eq, number, List.getElem?_eq_getElem hlt, Option.join_some]
      exact Option.isNone_iff_eq_none.mp hnone
    · -- a lower descriptor would have been found first
      by_contra hlower
      have hused := hbefore other (not_le.mp hlower)
      rw [Set.mem_ofPred_eq, number, List.getElem?_eq_getElem ((not_le.mp hlower).trans hlt),
        Option.join_some] at hother
      rw [hother] at hused
      exact hused rfl
    · rw [Bounded, List.length_set]
      exact hbound
  · rename_i hfull
    split at h
    · contradiction
    · rename_i hlength
      obtain ⟨rfl, rfl⟩ := Prod.mk.inj (Except.ok.inj h)
      refine ⟨⟨number_eq_none_of_le le_rfl, fun other hother => ?_⟩, ?_, ?_⟩
      · by_contra hlower
        have hused := List.findIdx?_eq_none_iff.mp hfull _ (List.getElem_mem (not_le.mp hlower))
        rw [Set.mem_ofPred_eq, number, List.getElem?_eq_getElem (not_le.mp hlower), Option.join_some] at hother
        rw [hother] at hused
        contradiction
      · funext other
        rw [number]
        by_cases heq : other = table.slots.length
        · subst heq
          rw [List.getElem?_concat_length, Option.join_some, Function.update_self]
        · rw [Function.update_of_ne heq, number]
          rcases lt_or_gt_of_ne heq with hlt | hgt
          · rw [List.getElem?_append_left hlt]
          · rw [List.getElem?_eq_none (by rw [List.length_append, List.length_singleton]; omega),
              List.getElem?_eq_none hgt.le]
      · rw [Bounded, List.length_append, List.length_singleton]
        omega

/-- `insert` fails only when every descriptor is in use. -/
theorem insert_error_iff (hbound : table.Bounded) :
    table.insert file = .error e ↔ e = .EMFILE ∧ table.openCount = maxFds := by
  have hcount := List.countP_le_length (p := Option.isSome) (l := table.slots)
  unfold insert openCount
  split
  · rename_i index hindex
    obtain ⟨hlt, hnone, -⟩ := List.findIdx?_eq_some_iff_getElem.mp hindex
    refine iff_of_false (by simp) fun ⟨_, hopen⟩ => ?_
    -- a slot is free, so not all of them are in use
    have hall : table.slots.countP Option.isSome = table.slots.length :=
      le_antisymm hcount (hopen ▸ hbound)
    have hsome := List.countP_eq_length.mp hall _ (List.getElem_mem hlt)
    rw [Option.isNone_iff_eq_none.mp hnone] at hsome
    contradiction
  · rename_i hfull
    have hall : table.slots.countP Option.isSome = table.slots.length := by
      refine List.countP_eq_length.mpr fun slot hslot => ?_
      have hused := List.findIdx?_eq_none_iff.mp hfull slot hslot
      cases slot with
      | none => contradiction
      | some file => rfl
    rw [hall]
    unfold Bounded at hbound
    split
    · rename_i hlength
      exact ⟨fun h => ⟨(Except.error.inj h).symm, by omega⟩, fun ⟨h, _⟩ => h ▸ rfl⟩
    · exact iff_of_false (by simp) fun ⟨_, hopen⟩ => by omega

theorem remove_ok (hbound : table.Bounded) (h : table.remove fd = .ok (file, table')) :
    table.number fd = some file ∧ table'.number = Function.update table.number fd none ∧
      table'.Bounded := by
  unfold remove at h
  split at h
  · rename_i file' hslot
    obtain ⟨rfl, rfl⟩ := Prod.mk.inj (Except.ok.inj h)
    have hlt := (List.getElem?_eq_some_iff.mp hslot).1
    refine ⟨?_, ?_, ?_⟩
    · rw [number, hslot, Option.join_some]
    · rw [number_rdropWhile, number_set hlt]
    · refine (List.rdropWhile_prefix _ _).length_le.trans ?_
      rw [List.length_set]
      exact hbound
  · contradiction

theorem dup_ok (hbound : table.Bounded) (h : table.dup fd = .ok (fd', table')) :
    table.LowestFree fd' ∧ table'.number = Function.update table.number fd' (table.number fd) ∧
      table'.Bounded := by
  unfold dup at h
  split at h
  · contradiction
  · rename_i file hget
    rw [get_eq_ok hget]
    exact insert_ok hbound h

theorem dup2_ok {old new : ℕ} (hbound : table.Bounded) (h : table.dup2 old new = .ok (fd, table')) :
    fd = new ∧ table'.number = Function.update table.number new (table.number old) ∧
      table'.Bounded := by
  unfold dup2 at h
  split at h
  · contradiction
  rename_i file hget
  have hold := get_eq_ok hget
  split at h
  · rename_i heq
    obtain ⟨rfl, rfl⟩ := Prod.mk.inj (Except.ok.inj h)
    subst heq
    exact ⟨rfl, (Function.update_eq_self _ _).symm, hbound⟩
  split at h
  · contradiction
  rename_i hlimit
  obtain ⟨rfl, rfl⟩ := Prod.mk.inj (Except.ok.inj h)
  refine ⟨rfl, ?_, ?_⟩
  · rw [hold, number_set (by rw [List.length_append, List.length_replicate]; omega),
      number_append_replicate]
  · unfold Bounded at hbound ⊢
    rw [List.length_set, List.length_append, List.length_replicate]
    omega

end FileTable

/-! ## The tables of a system -/

/-- The descriptor tables of all processes, and the open files behind them. -/
structure SystemFiles (ι : Type*) where
  tables : List FileTable
  file : ℕ → Option (OpenFile ι)
  /-- The number of the next open file. -/
  next : ℕ

/-- A descriptor: its table and its number there. -/
abbrev Descriptor : Type := ℕ × ℕ

/-- The operations on a table; `insert` is that of `open`, with a new open file. -/
inductive TableOp (ι : Type*)
  | insert (table : ℕ) (inode : ι) (flags : OpenFlags)
  | remove (table fd : ℕ)
  | dup (table fd : ℕ)
  | dup2 (table old new : ℕ)
  | fork (table : ℕ)

/-- An operation and what it returned. -/
structure LogEntry (ι : Type*) where
  op : TableOp ι
  reply : Except Errno ℕ

/-- Whether a descriptor descends from the `n`-th entry of a log, which opened a file, through `dup`, `dup2`
and `fork`. The newest entry is in front. -/
def Descends {ι : Type*} : List (LogEntry ι) → ℕ → Descriptor → Prop
  | [], _, _ => False
  | ⟨.insert table _ _, .ok fd⟩ :: log, n, d =>
    if d = (table, fd) then n = log.length else Descends log n d
  | ⟨.remove table fd, .ok _⟩ :: log, n, d => d ≠ (table, fd) ∧ Descends log n d
  | ⟨.dup table fd, .ok fd'⟩ :: log, n, d =>
    if d = (table, fd') then Descends log n (table, fd) else Descends log n d
  | ⟨.dup2 table old new, .ok _⟩ :: log, n, d =>
    if d = (table, new) then Descends log n (table, old) else Descends log n d
  | ⟨.fork table, .ok child⟩ :: log, n, d =>
    if d.1 = child then Descends log n (table, d.2) else Descends log n d
  | ⟨_, .error _⟩ :: log, n, d => Descends log n d

namespace SystemFiles

variable {ι : Type*} {s s' : SystemFiles ι} {d d' : Descriptor} {fd t : ℕ} {e : Errno} {op : TableOp ι}

/-- The open file behind a descriptor. -/
def number (s : SystemFiles ι) (d : Descriptor) : Option ℕ :=
  (s.tables[d.1]?).bind fun table => table.number d.2

/-- The offset that a descriptor reads and writes at. -/
def offset (s : SystemFiles ι) (d : Descriptor) : Option ℕ :=
  ((s.number d).bind s.file).map (·.offset)

/-- Move the offset of a descriptor. -/
def seek (s : SystemFiles ι) (d : Descriptor) (offset : ℕ) : SystemFiles ι :=
  match s.number d with
  | none => s
  | some id =>
    { s with file := Function.update s.file id ((s.file id).map fun file => { file with offset }) }

/-- Two descriptors share an offset: it moves for the one when it moves for the other. -/
def Shares (s : SystemFiles ι) (d d' : Descriptor) : Prop :=
  ∀ offset, (s.seek d offset).offset d' = some offset

/-- Run an operation on one table. -/
def onTable (s : SystemFiles ι) (t : ℕ) (f : FileTable → Except Errno (ℕ × FileTable)) :
    Option (Except Errno ℕ × SystemFiles ι) :=
  (s.tables[t]?).map fun table =>
    match f table with
    | .error e => (.error e, s)
    | .ok (fd, table') => (.ok fd, { s with tables := s.tables.set t table' })

/-- One operation; `none` when there is no such table. The file of an `open` that fails is dropped. -/
def perform (s : SystemFiles ι) : TableOp ι → Option (Except Errno ℕ × SystemFiles ι)
  | .insert t inode flags => (s.onTable t (·.insert s.next)).map fun
    | (.ok fd, s') => (.ok fd, { s' with
        file := Function.update s'.file s.next (some ⟨inode, flags, 0⟩)
        next := s.next + 1 })
    | (.error e, s') => (.error e, s')
  | .remove t fd => s.onTable t fun table => (table.remove fd).map fun (_, table') => (fd, table')
  | .dup t fd => s.onTable t (·.dup fd)
  | .dup2 t old new => s.onTable t (·.dup2 old new)
  | .fork t => (s.tables[t]?).map fun table =>
    (.ok s.tables.length, { s with tables := s.tables ++ [table.fork] })

/-- What the operation leaves at the descriptor that it returns. -/
def placed (s : SystemFiles ι) : TableOp ι → Option ℕ
  | .insert _ _ _ => some s.next
  | .remove _ _ => none
  | .dup t fd => s.number (t, fd)
  | .dup2 t old _ => s.number (t, old)
  | .fork _ => none

end SystemFiles

/-- The table that an operation works on. -/
def TableOp.table {ι : Type*} : TableOp ι → ℕ
  | .insert t _ _ => t
  | .remove t _ => t
  | .dup t _ => t
  | .dup2 t _ _ => t
  | .fork t => t

/-- Whether the operation hands out a descriptor of its own choice. -/
def TableOp.Allocates {ι : Type*} : TableOp ι → Prop
  | .insert _ _ _ => True
  | .dup _ _ => True
  | _ => False

/-- A system with the log of what was done. -/
structure LoggedFiles (ι : Type*) where
  system : SystemFiles ι
  log : List (LogEntry ι)

/-- Whether the operation, with its reply, is about this descriptor. -/
def TableOp.Targets {ι : Type*} (op : TableOp ι) (reply : ℕ) (d : Descriptor) : Prop :=
  match op with
  | .fork _ => d.1 = reply
  | op => d = (op.table, reply)

namespace SystemFiles

variable {ι : Type*} {s s' : SystemFiles ι} {d d' : Descriptor} {fd t id : ℕ} {e : Errno} {op : TableOp ι}

/-- No table is longer than the limit. -/
def Bounded (s : SystemFiles ι) : Prop :=
  ∀ table ∈ s.tables, table.Bounded

/-! ## What operations do -/

theorem onTable_ok {f : FileTable → Except Errno (ℕ × FileTable)} (h : s.onTable t f = some (.ok fd, s')) :
    ∃ table table', s.tables[t]? = some table ∧ f table = .ok (fd, table') ∧
      s' = { s with tables := s.tables.set t table' } := by
  obtain ⟨table, htable, heq⟩ := Option.map_eq_some_iff.mp h
  split at heq
  · exact absurd (congrArg Prod.fst heq) (by simp)
  · rename_i fd' table' hf
    obtain ⟨hfd, hs'⟩ := Prod.mk.inj heq
    obtain rfl := Except.ok.inj hfd
    exact ⟨table, table', htable, hf, hs'.symm⟩

theorem onTable_error {f : FileTable → Except Errno (ℕ × FileTable)}
    (h : s.onTable t f = some (.error e, s')) :
    s' = s ∧ ∃ table, s.tables[t]? = some table ∧ f table = .error e := by
  obtain ⟨table, htable, heq⟩ := Option.map_eq_some_iff.mp h
  split at heq
  · rename_i e' hf
    obtain ⟨he, hs'⟩ := Prod.mk.inj heq
    obtain rfl := Except.error.inj he
    exact ⟨hs'.symm, table, htable, hf⟩
  · exact absurd (congrArg Prod.fst heq) (by simp)

/-- Changing one descriptor of one table changes that descriptor of the system. -/
theorem number_setTable {table table' : FileTable} {value : Option ℕ} (htable : s.tables[t]? = some table)
    (hnumber : table'.number = Function.update table.number fd value) :
    number { s with tables := s.tables.set t table' } = Function.update s.number (t, fd) value := by
  have hlt := (List.getElem?_eq_some_iff.mp htable).1
  funext d
  obtain ⟨t', fd'⟩ := d
  rw [number]
  by_cases ht : t' = t
  · subst ht
    rw [List.getElem?_set_self hlt, Option.bind_some, hnumber]
    by_cases hfd : fd' = fd
    · rw [hfd, Function.update_self, Function.update_self]
    · have hne : (t', fd') ≠ (t', fd) := fun heq => hfd (Prod.mk.inj heq).2
      rw [Function.update_of_ne hfd, Function.update_of_ne hne, number, htable, Option.bind_some]
  · have hne : (t', fd') ≠ (t, fd) := fun heq => ht (Prod.mk.inj heq).1
    rw [List.getElem?_set_ne (Ne.symm ht), Function.update_of_ne hne, number]

theorem Bounded.setTable (h : s.Bounded) {table' : FileTable} (htable' : table'.Bounded) :
    Bounded { s with tables := s.tables.set t table' } := by
  intro table htable
  rcases List.mem_or_eq_of_mem_set htable with hmem | rfl
  · exact h table hmem
  · exact htable'

/-- What an operation other than `fork` does when it succeeds: it places one open file, or none. -/
structure Placed (s s' : SystemFiles ι) (op : TableOp ι) (fd : ℕ) : Prop where
  number_eq : s'.number = Function.update s.number (op.table, fd) (s.placed op)
  bounded : s'.Bounded
  lowest : op.Allocates → ∃ table, s.tables[op.table]? = some table ∧ table.LowestFree fd

/-- On one table, by what the table's operation does. -/
theorem placed_of_onTable (op : TableOp ι) (hbound : s.Bounded) {f : FileTable → Except Errno (ℕ × FileTable)}
    (hf : ∀ table table' fd, table.Bounded → s.tables[op.table]? = some table → f table = .ok (fd, table') →
      (op.Allocates → table.LowestFree fd) ∧
        table'.number = Function.update table.number fd (s.placed op) ∧ table'.Bounded)
    (h : s.onTable op.table f = some (.ok fd, s')) : Placed s s' op fd ∧ s'.file = s.file ∧ s'.next = s.next := by
  obtain ⟨table, table', htable, heq, rfl⟩ := onTable_ok h
  obtain ⟨hlowest, hnumber, hbound'⟩ := hf table table' fd (hbound table (List.mem_of_getElem? htable)) htable heq
  exact ⟨⟨number_setTable htable hnumber, hbound.setTable hbound', fun h => ⟨table, htable, hlowest h⟩⟩,
    rfl, rfl⟩

/-- The open file behind a descriptor, through its table. -/
theorem number_of_table {table : FileTable} (htable : s.tables[t]? = some table) :
    s.number (t, fd) = table.number fd := by
  rw [number, htable, Option.bind_some]

theorem perform_remove (hbound : s.Bounded) (h : s.perform (.remove t fd) = some (.ok id, s')) :
    Placed s s' (.remove t fd) id ∧ s'.file = s.file ∧ s'.next = s.next ∧ id = fd := by
  have hremove : ∀ (table table' : FileTable) (fd' : ℕ), (table.remove fd).map (fun (_, table') => (fd, table')) =
      .ok (fd', table') → fd' = fd ∧ ∃ file, table.remove fd = .ok (file, table') := by
    intro table table' fd' heq
    rcases hremove : table.remove fd with e | ⟨file, table''⟩
    · rw [hremove] at heq
      contradiction
    · rw [hremove] at heq
      obtain ⟨rfl, rfl⟩ := Prod.mk.inj (Except.ok.inj heq)
      exact ⟨rfl, file, rfl⟩
  have hreply : id = fd := by
    obtain ⟨table, table', -, heq, -⟩ := onTable_ok h
    exact (hremove table table' id heq).1
  have hplaced := placed_of_onTable (.remove t fd) hbound (fun table table' fd' hbounded _ heq => by
    obtain ⟨rfl, file, heq⟩ := hremove table table' fd' heq
    exact ⟨False.elim, (FileTable.remove_ok hbounded heq).2⟩) h
  exact ⟨hplaced.1, hplaced.2.1, hplaced.2.2, hreply⟩

theorem perform_dup (hbound : s.Bounded) (h : s.perform (.dup t fd) = some (.ok id, s')) :
    Placed s s' (.dup t fd) id ∧ s'.file = s.file ∧ s'.next = s.next := by
  refine placed_of_onTable (.dup t fd) hbound (fun table table' fd' hbounded htable heq => ?_) h
  obtain ⟨hlowest, hnumber, hbounded'⟩ := FileTable.dup_ok hbounded heq
  have hsource : s.number (t, fd) = table.number fd := number_of_table htable
  exact ⟨fun _ => hlowest, by rw [hnumber, placed, hsource], hbounded'⟩

theorem perform_dup2 {old new : ℕ} (hbound : s.Bounded)
    (h : s.perform (.dup2 t old new) = some (.ok id, s')) :
    Placed s s' (.dup2 t old new) id ∧ s'.file = s.file ∧ s'.next = s.next ∧ id = new := by
  have hreply : id = new := by
    obtain ⟨table, table', htable, heq, -⟩ := onTable_ok h
    exact (FileTable.dup2_ok (hbound table (List.mem_of_getElem? htable)) heq).1
  have hplaced := placed_of_onTable (.dup2 t old new) hbound
    (fun table table' fd' hbounded htable heq => by
      obtain ⟨rfl, hnumber, hbounded'⟩ := FileTable.dup2_ok hbounded heq
      have hsource : s.number (t, old) = table.number old := number_of_table htable
      exact ⟨False.elim, by rw [hnumber, placed, hsource], hbounded'⟩) h
  exact ⟨hplaced.1, hplaced.2.1, hplaced.2.2, hreply⟩

/-- `insert` also stores the new open file, under a number of its own. -/
theorem perform_insert {inode : ι} {flags : OpenFlags} (hbound : s.Bounded)
    (h : s.perform (.insert t inode flags) = some (.ok id, s')) :
    Placed s s' (.insert t inode flags) id ∧ s'.next = s.next + 1 ∧
      s'.file = Function.update s.file s.next (some ⟨inode, flags, 0⟩) := by
  obtain ⟨⟨reply, s₁⟩, hrun, heq⟩ := Option.map_eq_some_iff.mp h
  cases reply with
  | error e => exact absurd (congrArg Prod.fst heq) (by simp)
  | ok fd =>
    obtain ⟨hfd, rfl⟩ := Prod.mk.inj heq
    obtain rfl := Except.ok.inj hfd
    obtain ⟨hplaced, hfile, hnext⟩ := placed_of_onTable (.insert t inode flags) hbound
      (fun table table' fd' hbounded _ heq => by
        obtain ⟨hlowest, hrest⟩ := FileTable.insert_ok hbounded heq
        exact ⟨fun _ => hlowest, hrest⟩) hrun
    exact ⟨⟨hplaced.number_eq, hplaced.bounded, hplaced.lowest⟩, rfl, by rw [hfile]⟩

theorem perform_fork {reply : Except Errno ℕ} (hbound : s.Bounded)
    (h : s.perform (.fork t) = some (reply, s')) :
    reply = .ok s.tables.length ∧ s'.Bounded ∧ s'.file = s.file ∧ s'.next = s.next ∧
      ∀ d, s'.number d = if d.1 = s.tables.length then s.number (t, d.2) else s.number d := by
  obtain ⟨table, htable, heq⟩ := Option.map_eq_some_iff.mp h
  obtain ⟨rfl, rfl⟩ := Prod.mk.inj heq
  refine ⟨rfl, ?_, rfl, rfl, fun d => ?_⟩
  · intro table' htable'
    rcases List.mem_append.mp htable' with hmem | hmem
    · exact hbound table' hmem
    · rw [List.mem_singleton.mp hmem]
      exact hbound table (List.mem_of_getElem? htable)
  · rw [number]
    dsimp only
    split
    · rename_i heq
      rw [heq, List.getElem?_concat_length, Option.bind_some, number_of_table htable]
      rfl
    · rename_i hne
      rw [number]
      rcases lt_or_gt_of_ne hne with hlt | hgt
      · rw [List.getElem?_append_left hlt]
      · rw [List.getElem?_eq_none (by rw [List.length_append, List.length_singleton]; omega),
          List.getElem?_eq_none hgt.le]

/-- Nothing changes when an operation fails. -/
theorem perform_error (h : s.perform op = some (.error e, s')) : s' = s := by
  cases op with
  | insert t inode flags =>
    obtain ⟨⟨reply, s₁⟩, hrun, heq⟩ := Option.map_eq_some_iff.mp h
    cases reply with
    | error e' =>
      obtain ⟨-, rfl⟩ := Prod.mk.inj heq
      exact (onTable_error hrun).1
    | ok fd => exact absurd (congrArg Prod.fst heq) (by simp)
  | remove t fd => exact (onTable_error h).1
  | dup t fd => exact (onTable_error h).1
  | dup2 t old new => exact (onTable_error h).1
  | fork t =>
    obtain ⟨table, -, heq⟩ := Option.map_eq_some_iff.mp h
    exact absurd (congrArg Prod.fst heq) (by simp)

/-! ## Offsets -/

/-- Two descriptors share an offset exactly when the same open file is behind both. -/
theorem shares_iff {id' : ℕ} {file file' : OpenFile ι} (hid : s.number d = some id)
    (hid' : s.number d' = some id') (hfile : s.file id = some file) (hfile' : s.file id' = some file') :
    s.Shares d d' ↔ id = id' := by
  have hseek : ∀ offset, (s.seek d offset).offset d' =
      (Function.update s.file id (some { file with offset }) id').map (·.offset) := by
    intro offset
    have hnumber : (s.seek d offset).number d' = some id' := by
      rw [seek, hid]
      exact hid'
    have hmoved : (s.seek d offset).file = Function.update s.file id (some { file with offset }) := by
      rw [seek, hid]
      dsimp only
      rw [hfile, Option.map_some]
    rw [SystemFiles.offset, hnumber, Option.bind_some, hmoved]
  constructor
  · intro hshares
    by_contra hne
    -- the other file's offset stays, so it does not move to the next one
    have hmoved := hshares (file'.offset + 1)
    rw [hseek, Function.update_of_ne (Ne.symm hne), hfile', Option.map_some] at hmoved
    exact absurd (Option.some.inj hmoved) (Nat.lt_succ_self _).ne
  · rintro rfl offset
    rw [hseek, Function.update_self, Option.map_some]

end SystemFiles

namespace LoggedFiles

variable {ι : Type*}

def Step (c : LoggedFiles ι) (op : TableOp ι) (c' : LoggedFiles ι) : Prop :=
  ∃ reply, c.system.perform op = some (reply, c'.system) ∧ c'.log = ⟨op, reply⟩ :: c.log

/-- Any number of empty tables. -/
def Initial (c : LoggedFiles ι) : Prop :=
  (∀ table ∈ c.system.tables, table = ⟨[]⟩) ∧ c.system.next = 0 ∧ c.log = []

variable {c c' : LoggedFiles ι} {d d' : Descriptor}

/-- Descriptors refer to stored open files, and descend from the open that made theirs: `opened` is the
entry of the log that made an open file. -/
structure Inv (c : LoggedFiles ι) (opened : ℕ → ℕ) : Prop where
  bounded : c.system.Bounded
  stored : ∀ d id, c.system.number d = some id → id < c.system.next ∧ ∃ file, c.system.file id = some file
  opened_lt : ∀ id < c.system.next, opened id < c.log.length
  opened_inj : ∀ a < c.system.next, ∀ b < c.system.next, opened a = opened b → a = b
  descends_iff : ∀ d n, Descends c.log n d ↔ ∃ id, c.system.number d = some id ∧ opened id = n

theorem Inv.initial (h : Initial c) : Inv c fun _ => 0 := by
  obtain ⟨hempty, hnext, hlog⟩ := h
  have hnumber : ∀ d, c.system.number d = none := by
    intro d
    rw [SystemFiles.number]
    cases htable : c.system.tables[d.1]? with
    | none => rfl
    | some table =>
      rw [hempty table (List.mem_of_getElem? htable)]
      rfl
  refine ⟨fun table htable => ?_, fun d id hid => ?_, fun id hid => ?_, fun a ha b hb _ => ?_, fun d n => ?_⟩
  · rw [hempty table htable]
    exact Nat.zero_le _
  · rw [hnumber] at hid
    contradiction
  · exact absurd (hnext ▸ hid) (Nat.not_lt_zero id)
  · exact absurd (hnext ▸ ha) (Nat.not_lt_zero a)
  · rw [hlog, hnumber]
    exact iff_of_false id fun ⟨_, hid, _⟩ => absurd hid (by simp)

/-- Where the stored files stay and each descriptor takes one that was behind some descriptor, the
invariant is kept. -/
theorem Inv.move {opened : ℕ → ℕ} (h : Inv c opened) (hbounded : c'.system.Bounded)
    (hfile : c'.system.file = c.system.file) (hnext : c'.system.next = c.system.next)
    (hlog : c'.log.length = c.log.length + 1)
    (hmoved : ∀ d, (c'.system.number d = none ∧ ∀ n, ¬ Descends c'.log n d) ∨
      ∃ source, c'.system.number d = c.system.number source ∧
        ∀ n, Descends c'.log n d ↔ Descends c.log n source) : Inv c' opened := by
  refine ⟨hbounded, fun d id hid => ?_, fun id hid => ?_, fun a ha b hb => ?_, fun d n => ?_⟩
  · rw [hfile, hnext]
    rcases hmoved d with ⟨hnone, -⟩ | ⟨source, hsource, -⟩
    · rw [hnone] at hid
      contradiction
    · exact h.stored source id (hsource ▸ hid)
  · rw [hnext] at hid
    exact hlog ▸ (h.opened_lt id hid).trans (Nat.lt_succ_self _)
  · rw [hnext] at ha hb
    exact h.opened_inj a ha b hb
  · rcases hmoved d with ⟨hnone, hdescends⟩ | ⟨source, hsource, hdescends⟩
    · rw [hnone]
      exact iff_of_false (hdescends n) fun ⟨_, hid, _⟩ => absurd hid (by simp)
    · rw [hdescends, hsource, h.descends_iff]

theorem descends_error (op : TableOp ι) (e : Errno) (log : List (LogEntry ι)) (n : ℕ) (d : Descriptor) :
    Descends (⟨op, .error e⟩ :: log) n d ↔ Descends log n d := by
  cases op <;> exact Iff.rfl

/-- A new open file under a number of its own, and the entry of the log that opened it. -/
theorem Inv.open {opened : ℕ → ℕ} (h : Inv c opened) {t fd : ℕ} {inode : ι} {flags : OpenFlags}
    (hplaced : SystemFiles.Placed c.system c'.system (.insert t inode flags) fd)
    (hnext : c'.system.next = c.system.next + 1)
    (hfile : c'.system.file = Function.update c.system.file c.system.next (some ⟨inode, flags, 0⟩))
    (hlog : c'.log = ⟨.insert t inode flags, .ok fd⟩ :: c.log) :
    Inv c' (Function.update opened c.system.next c.log.length) := by
  have hold : ∀ id < c.system.next, Function.update opened c.system.next c.log.length id = opened id :=
    fun id hid => Function.update_of_ne hid.ne _ _
  have hnumber : ∀ d, c'.system.number d =
      if d = (t, fd) then some c.system.next else c.system.number d := by
    intro d
    rw [hplaced.number_eq, Function.update_apply]
    rfl
  refine ⟨hplaced.bounded, fun d id hid => ?_, fun id hid => ?_, fun a ha b hb heq => ?_, fun d n => ?_⟩
  · rw [hnext, hfile]
    rw [hnumber] at hid
    split at hid
    · obtain rfl := Option.some.inj hid
      exact ⟨Nat.lt_succ_self _, _, Function.update_self ..⟩
    · obtain ⟨hlt, file, hfile⟩ := h.stored d id hid
      exact ⟨hlt.trans (Nat.lt_succ_self _), file, by rw [Function.update_of_ne hlt.ne, hfile]⟩
  · rw [hlog, List.length_cons]
    rcases Nat.lt_succ_iff_lt_or_eq.mp (hnext ▸ hid) with hlt | rfl
    · rw [hold id hlt]
      exact (h.opened_lt id hlt).trans (Nat.lt_succ_self _)
    · rw [Function.update_self]
      exact Nat.lt_succ_self _
  · -- the new entry of the log is behind none of the older open files
    rcases Nat.lt_succ_iff_lt_or_eq.mp (hnext ▸ ha) with ha | rfl <;>
      rcases Nat.lt_succ_iff_lt_or_eq.mp (hnext ▸ hb) with hb | rfl
    · rw [hold a ha, hold b hb] at heq
      exact h.opened_inj a ha b hb heq
    · rw [hold a ha, Function.update_self] at heq
      exact absurd heq (h.opened_lt a ha).ne
    · rw [hold b hb, Function.update_self] at heq
      exact absurd heq.symm (h.opened_lt b hb).ne
    · rfl
  · rw [hlog, Descends, hnumber]
    split
    · rename_i hd
      constructor
      · rintro rfl
        exact ⟨_, rfl, Function.update_self ..⟩
      · rintro ⟨id, hid, hopened⟩
        obtain rfl := Option.some.inj hid
        rw [Function.update_self] at hopened
        exact hopened.symm
    · rw [h.descends_iff]
      refine exists_congr fun id => and_congr_right fun hid => ?_
      rw [hold id (h.stored d id hid).1]

theorem Inv.step {opened : ℕ → ℕ} (h : Inv c opened) {op : TableOp ι} (hstep : Step c op c') :
    ∃ opened', Inv c' opened' := by
  obtain ⟨reply, hrun, hlog⟩ := hstep
  have hlength : c'.log.length = c.log.length + 1 := by rw [hlog, List.length_cons]
  cases reply with
  | error e =>
    have hsame := SystemFiles.perform_error hrun
    refine ⟨opened, h.move (hsame ▸ h.bounded) (by rw [hsame]) (by rw [hsame]) hlength fun d =>
      .inr ⟨d, by rw [hsame], fun n => ?_⟩⟩
    rw [hlog, descends_error]
  | ok fd =>
    cases op with
    | insert t inode flags =>
      obtain ⟨hplaced, hnext, hfile⟩ := SystemFiles.perform_insert h.bounded hrun
      exact ⟨_, h.open hplaced hnext hfile hlog⟩
    | remove t target =>
      obtain ⟨hplaced, hfile, hnext, rfl⟩ := SystemFiles.perform_remove h.bounded hrun
      refine ⟨opened, h.move hplaced.bounded hfile hnext hlength fun d => ?_⟩
      rw [hlog, hplaced.number_eq, Function.update_apply]
      split
      · rename_i hd
        exact .inl ⟨rfl, fun n hdescends => hdescends.1 hd⟩
      · rename_i hd
        exact .inr ⟨d, rfl, fun n => and_iff_right hd⟩
    | dup t source =>
      obtain ⟨hplaced, hfile, hnext⟩ := SystemFiles.perform_dup h.bounded hrun
      refine ⟨opened, h.move hplaced.bounded hfile hnext hlength fun d => .inr ?_⟩
      rw [hlog, hplaced.number_eq, Function.update_apply]
      simp only [Descends]
      split
      · exact ⟨(t, source), rfl, fun n => by simp_all [TableOp.table]⟩
      · exact ⟨d, rfl, fun n => by simp_all [TableOp.table]⟩
    | dup2 t old new =>
      obtain ⟨hplaced, hfile, hnext, rfl⟩ := SystemFiles.perform_dup2 h.bounded hrun
      refine ⟨opened, h.move hplaced.bounded hfile hnext hlength fun d => .inr ?_⟩
      rw [hlog, hplaced.number_eq, Function.update_apply]
      simp only [Descends]
      split
      · exact ⟨(t, old), rfl, fun n => by simp_all [TableOp.table]⟩
      · exact ⟨d, rfl, fun n => by simp_all [TableOp.table]⟩
    | fork t =>
      obtain ⟨hreply, hbounded, hfile, hnext, hnumber⟩ := SystemFiles.perform_fork h.bounded hrun
      obtain rfl := Except.ok.inj hreply
      refine ⟨opened, h.move hbounded hfile hnext hlength fun d => .inr ?_⟩
      rw [hlog, hnumber]
      simp only [Descends]
      split
      · exact ⟨(t, d.2), rfl, fun n => Iff.rfl⟩
      · exact ⟨d, rfl, fun n => Iff.rfl⟩

/-! ## Every run -/

/-- What holds of the descriptors in every run. -/
structure Correct (c : LoggedFiles ι) : Prop where
  /-- `insert` and `dup` return the lowest descriptor not in use. -/
  lowest : ∀ op : TableOp ι, op.Allocates → ∀ fd s', c.system.perform op = some (.ok fd, s') →
    ∃ table, c.system.tables[op.table]? = some table ∧ table.LowestFree fd
  /-- `insert` fails when all descriptors are in use, and only then. -/
  insert_fails : ∀ t table, c.system.tables[t]? = some table → ∀ inode flags e,
    c.system.perform (.insert t inode flags) = some (.error e, c.system) ↔
      e = .EMFILE ∧ table.openCount = maxFds
  /-- So does `dup`, of a descriptor that is in use. -/
  dup_fails : ∀ t table, c.system.tables[t]? = some table → ∀ fd e,
    c.system.perform (.dup t fd) = some (.error e, c.system) ↔
      if table.number fd = none then e = .EBADF else e = .EMFILE ∧ table.openCount = maxFds
  /-- What an operation leaves at the descriptor it is about. -/
  placed : ∀ op : TableOp ι, (∀ t, op ≠ .fork t) → ∀ fd s', c.system.perform op = some (.ok fd, s') →
    s'.number (op.table, fd) = c.system.placed op
  target : ∀ op fd s', c.system.perform op = some (.ok fd, s') →
    match op with
    | .remove _ fd' => fd = fd'
    | .dup2 _ _ new => fd = new
    | .fork _ => fd = c.system.tables.length
    | _ => True
  /-- A forked table has the same open files at the same descriptors. -/
  forked : ∀ t child s', c.system.perform (.fork t) = some (.ok child, s') →
    ∀ fd, s'.number (child, fd) = c.system.number (t, fd)
  /-- Nothing else changes. -/
  kept : ∀ (op : TableOp ι) fd s', c.system.perform op = some (.ok fd, s') → ∀ d, ¬ op.Targets fd d →
    s'.number d = c.system.number d ∧ s'.offset d = c.system.offset d
  /-- A failed operation changes nothing. -/
  failed : ∀ op e s', c.system.perform op = some (.error e, s') → s' = c.system
  /-- Descriptors share an offset exactly when they descend from the same open. -/
  shares_iff : ∀ d d', c.system.number d ≠ none → c.system.number d' ≠ none →
    (c.system.Shares d d' ↔ ∃ n, Descends c.log n d ∧ Descends c.log n d')

theorem offset_congr {s s' : SystemFiles ι} (hnumber : s'.number d = s.number d)
    (hfile : ∀ id, s.number d = some id → s'.file id = s.file id) : s'.offset d = s.offset d := by
  rw [SystemFiles.offset, SystemFiles.offset, hnumber]
  cases hid : s.number d with
  | none => rfl
  | some id => rw [Option.bind_some, Option.bind_some, hfile id hid]

theorem Inv.kept {opened : ℕ → ℕ} (h : Inv c opened) {op : TableOp ι} {fd : ℕ} {s' : SystemFiles ι}
    (hrun : c.system.perform op = some (.ok fd, s')) (hd : ¬ op.Targets fd d) :
    s'.number d = c.system.number d ∧ s'.offset d = c.system.offset d := by
  cases op with
  | insert t inode flags =>
    obtain ⟨hplaced, -, hfile⟩ := SystemFiles.perform_insert h.bounded hrun
    have hnumber : s'.number d = c.system.number d := by
      rw [hplaced.number_eq]
      exact Function.update_of_ne hd _ _
    refine ⟨hnumber, offset_congr hnumber fun id hid => ?_⟩
    rw [hfile, Function.update_of_ne (h.stored d id hid).1.ne]
  | remove t target =>
    obtain ⟨hplaced, hfile, -, -⟩ := SystemFiles.perform_remove h.bounded hrun
    have hnumber : s'.number d = c.system.number d := by
      rw [hplaced.number_eq]
      exact Function.update_of_ne hd _ _
    exact ⟨hnumber, offset_congr hnumber fun id _ => by rw [hfile]⟩
  | dup t source =>
    obtain ⟨hplaced, hfile, -⟩ := SystemFiles.perform_dup h.bounded hrun
    have hnumber : s'.number d = c.system.number d := by
      rw [hplaced.number_eq]
      exact Function.update_of_ne hd _ _
    exact ⟨hnumber, offset_congr hnumber fun id _ => by rw [hfile]⟩
  | dup2 t old new =>
    obtain ⟨hplaced, hfile, -, -⟩ := SystemFiles.perform_dup2 h.bounded hrun
    have hnumber : s'.number d = c.system.number d := by
      rw [hplaced.number_eq]
      exact Function.update_of_ne hd _ _
    exact ⟨hnumber, offset_congr hnumber fun id _ => by rw [hfile]⟩
  | fork t =>
    obtain ⟨hreply, -, hfile, -, hforked⟩ := SystemFiles.perform_fork h.bounded hrun
    obtain rfl := Except.ok.inj hreply
    have hnumber : s'.number d = c.system.number d := by
      rw [hforked]
      exact if_neg hd
    exact ⟨hnumber, offset_congr hnumber fun id _ => by rw [hfile]⟩

theorem onTable_error_iff {s : SystemFiles ι} {t : ℕ} {table : FileTable} (htable : s.tables[t]? = some table)
    {f : FileTable → Except Errno (ℕ × FileTable)} {e : Errno} :
    s.onTable t f = some (.error e, s) ↔ f table = .error e := by
  rw [SystemFiles.onTable, htable, Option.map_some]
  cases hf : f table with
  | error e' => simp
  | ok result => simp

theorem Inv.correct {opened : ℕ → ℕ} (h : Inv c opened) : Correct c where
  lowest op hallocates fd s' hrun := by
    cases op with
    | insert t inode flags => exact (SystemFiles.perform_insert h.bounded hrun).1.lowest hallocates
    | dup t source => exact (SystemFiles.perform_dup h.bounded hrun).1.lowest hallocates
    | remove t target => exact hallocates.elim
    | dup2 t old new => exact hallocates.elim
    | fork t => exact hallocates.elim
  insert_fails t table htable inode flags e := by
    have hbounded := h.bounded table (List.mem_of_getElem? htable)
    have hinsert : table.insert c.system.next = .error e ↔ e = .EMFILE ∧ table.openCount = maxFds :=
      FileTable.insert_error_iff hbounded
    rw [← hinsert, ← onTable_error_iff htable (f := (·.insert c.system.next)), SystemFiles.perform]
    cases hrun : c.system.onTable t (·.insert c.system.next) with
    | none => simp
    | some result =>
      obtain ⟨reply, s'⟩ := result
      cases reply <;> simp
  dup_fails t table htable fd e := by
    rw [SystemFiles.perform, onTable_error_iff htable, FileTable.dup, FileTable.get_eq]
    cases hfd : table.number fd with
    | none => simp [eq_comm]
    | some file => simp [FileTable.insert_error_iff (h.bounded table (List.mem_of_getElem? htable))]
  placed op hfork fd s' hrun := by
    have hplaced : SystemFiles.Placed c.system s' op fd := by
      cases op with
      | insert t inode flags => exact (SystemFiles.perform_insert h.bounded hrun).1
      | dup t source => exact (SystemFiles.perform_dup h.bounded hrun).1
      | remove t target => exact (SystemFiles.perform_remove h.bounded hrun).1
      | dup2 t old new => exact (SystemFiles.perform_dup2 h.bounded hrun).1
      | fork t => exact absurd rfl (hfork t)
    rw [hplaced.number_eq, Function.update_self]
  target op fd s' hrun := by
    cases op with
    | insert t inode flags => trivial
    | dup t source => trivial
    | remove t target => exact (SystemFiles.perform_remove h.bounded hrun).2.2.2
    | dup2 t old new => exact (SystemFiles.perform_dup2 h.bounded hrun).2.2.2
    | fork t => exact Except.ok.inj (SystemFiles.perform_fork h.bounded hrun).1
  forked t child s' hrun fd := by
    obtain ⟨hreply, -, -, -, hforked⟩ := SystemFiles.perform_fork h.bounded hrun
    rw [hforked]
    exact if_pos (Except.ok.inj hreply)
  kept op fd s' hrun d hd := h.kept hrun hd
  failed op e s' hrun := SystemFiles.perform_error hrun
  shares_iff d d' hd hd' := by
    obtain ⟨id, hid⟩ := Option.ne_none_iff_exists'.mp hd
    obtain ⟨id', hid'⟩ := Option.ne_none_iff_exists'.mp hd'
    obtain ⟨hlt, file, hfile⟩ := h.stored d id hid
    obtain ⟨hlt', file', hfile'⟩ := h.stored d' id' hid'
    rw [SystemFiles.shares_iff hid hid' hfile hfile']
    simp only [h.descends_iff, hid, hid', Option.some.injEq, exists_eq_left']
    exact ⟨fun heq => heq ▸ rfl, fun heq => h.opened_inj id hlt id' hlt' heq.symm⟩

/-- The descriptors of all processes, in every run. -/
theorem reachable_correct (h : Run.Reachable Initial Step c) : Correct c := by
  have hinv : ∃ opened, Inv c opened := by
    refine h.invariant (P := fun c => ∃ opened, Inv c opened) (fun _ hinit => ⟨_, Inv.initial hinit⟩) ?_
    rintro _ _ _ ⟨_, hinv⟩ hstep
    exact hinv.step hstep
  obtain ⟨opened, hinv⟩ := hinv
  exact hinv.correct

/-- One process that has opened a file and duplicated its descriptor. -/
def duplicated : LoggedFiles Unit where
  system := ⟨[⟨[some 0, some 0]⟩], Function.update (fun _ => none) 0 (some ⟨(), .read, 0⟩), 1⟩
  log := [⟨.dup 0 0, .ok 1⟩, ⟨.insert 0 () .read, .ok 0⟩]

theorem reachable_correct_duplicated : Correct duplicated := by
  let opened : LoggedFiles Unit :=
    ⟨⟨[⟨[some 0]⟩], Function.update (fun _ => none) 0 (some ⟨(), .read, 0⟩), 1⟩, [⟨.insert 0 () .read, .ok 0⟩]⟩
  have hinitial : Initial (⟨⟨[⟨[]⟩], fun _ => none, 0⟩, []⟩ : LoggedFiles Unit) := ⟨by simp, rfl, rfl⟩
  have hopen : Step ⟨⟨[⟨[]⟩], fun _ => none, 0⟩, []⟩ (.insert 0 () .read) opened := ⟨.ok 0, rfl, rfl⟩
  have hdup : Step opened (.dup 0 0) duplicated := ⟨.ok 1, rfl, rfl⟩
  exact reachable_correct (.next (.next (.start hinitial) hopen) hdup)

end LoggedFiles

end SaeOS.Fs
