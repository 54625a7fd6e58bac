import SaeOS.Arch.AcpiReads

/-!
# What is read of the ACPI tables, one after the other

Each table is read after `mapped_address` has mapped its first page. The rest of it is not mapped on the way, so
that parsing reads mapped bytes only if the rest is direct mapped beforehand, or is the first page of a table
before it.
-/

namespace SaeOS.Acpi

open Reading DirectMap

variable {memory : ℕ → UInt8} {s : KernelMap}

/-! ## Reading what has been read before -/

section Again

variable {readable : ℕ → Bool}

theorem load_eq {a : ℕ} (h : readable a = true) : load memory a readable = .ok (memory a) :=
  if_pos h

/-- Bytes that are readable have addresses. -/
theorem readNumber_eq (hwindow : ∀ a, readable a = true → a < window) {n address : ℕ} (hn : 0 < n)
    (hcovers : Covers readable (span address n)) :
    readNumber memory n address readable = .ok (numberAt memory address n) := by
  have hfirst : address < window := hwindow address (hcovers address (mem_span.mpr ⟨le_rfl, by omega⟩))
  exact (readNumber_exact n address hfirst).covered readable hcovers

theorem rsdpExtent_of_valid {address : ℕ} (h : rsdpAt memory address = some true) :
    20 ≤ rsdpExtent memory address ∧ (2 ≤ memory (address + 15) → 36 ≤ rsdpExtent memory address) := by
  unfold rsdpAt at h
  unfold rsdpExtent
  split at h
  · contradiction
  rename_i htext
  rw [if_neg htext]
  split at h
  · contradiction
  rename_i hsum
  rw [if_neg hsum]
  split at h
  · rename_i hold
    rw [if_pos hold]
    exact ⟨le_rfl, fun hnew => absurd hold (UInt8.not_lt.mpr hnew)⟩
  rename_i hnew
  rw [if_neg hnew]
  split at h
  · contradiction
  rename_i hwindow
  rw [if_neg hwindow]
  split at h
  · contradiction
  rename_i hlong
  rw [if_neg hlong]
  omega

/-- The root table's address is read from a root pointer that has been read. -/
theorem rootTable_eq (hwindow : ∀ a, readable a = true → a < window) {address : ℕ}
    (hvalid : rsdpAt memory address = some true)
    (hcovers : Covers readable (span address (rsdpExtent memory address))) :
    rootTable memory address readable = .ok (rootAt memory address) := by
  obtain ⟨htwenty, hlong⟩ := rsdpExtent_of_valid hvalid
  have hrevision : load memory (address + 15) readable = .ok (memory (address + 15)) :=
    load_eq (hcovers _ (mem_span.mpr ⟨by omega, by omega⟩))
  have hold : readU32 memory (address + 16) readable = .ok (numberAt memory (address + 16) 4) :=
    readNumber_eq hwindow (by decide) (hcovers.mono (span_subset_add (by omega)))
  have hlegacy : (readU32 memory (address + 16) >>= fun root => pure (root, false)) readable =
      .ok (numberAt memory (address + 16) 4, false) := by
    rw [bind_apply, hold]
    rfl
  rw [rootTable, bind_apply, hrevision, rootAt]
  dsimp only [Except.bind]
  by_cases hnew : 2 ≤ memory (address + 15)
  · have hextended : readU64 memory (address + 24) readable = .ok (numberAt memory (address + 24) 8) :=
      readNumber_eq hwindow (by decide) (hcovers.mono (span_subset_add (by have := hlong hnew; omega)))
    rw [if_pos hnew, bind_apply, bind_apply, hextended]
    dsimp only [Except.bind]
    by_cases hzero : numberAt memory (address + 24) 8 = 0
    · rw [hzero, if_neg fun hin => hin.2 rfl]
      exact hlegacy
    · have hbit : (numberAt memory (address + 24) 8 != 0) = true := bne_iff_ne.mpr hzero
      rw [if_pos ⟨hnew, hzero⟩, hbit]
      refine (bind_apply (readU64 memory (address + 24)) (fun root => pure (root, true)) readable).trans ?_
      rw [hextended]
      rfl
  · rw [if_neg hnew, if_neg fun hin => hnew hin.1, bind_apply]
    exact hlegacy

theorem tableAt_valid {address shortest length : ℕ} {signature : List UInt8}
    (h : tableAt memory address signature shortest = some (.valid length)) :
    tableExtent memory address signature shortest = length ∧ length = lengthAt memory address ∧
      shortest ≤ length ∧ textAt memory address signature = true := by
  unfold tableAt at h
  unfold tableExtent
  split at h
  · cases h
  rename_i htext
  rw [if_neg htext]
  split at h
  · contradiction
  rename_i hwindow
  rw [if_neg hwindow]
  split at h
  · cases h
  rename_i hlong
  rw [if_neg hlong]
  split at h
  · obtain rfl := TableCheck.valid.inj (Option.some.inj h)
    exact ⟨rfl, rfl, Nat.not_lt.mp hlong, Bool.eq_true_of_not_eq_false htext⟩
  · cases h

theorem textAt_of_tableAt {address shortest : ℕ} {signature : List UInt8} :
    tableAt memory address signature shortest = some .foreign ↔ textAt memory address signature = false := by
  unfold tableAt
  constructor
  · intro h
    by_contra htext
    rw [if_neg htext] at h
    split at h
    · contradiction
    split at h
    · contradiction
    split at h
    · cases h
    · contradiction
  · exact fun htext => if_pos htext

/-- How many bytes of the root table an index reaches. -/
theorem entry_inside {extended : Bool} {length index : ℕ} (hlength : 36 ≤ length)
    (hindex : index < (length - 36) / entrySize extended) :
    36 + index * entrySize extended + entrySize extended ≤ length := by
  have hmul : (index + 1) * entrySize extended ≤ length - 36 := by
    refine (Nat.mul_le_mul_right _ hindex).trans (Nat.div_mul_le_self _ _)
  rw [Nat.add_mul, Nat.one_mul] at hmul
  omega

theorem entryPointer_within {root length index : ℕ} {extended : Bool} (hlength : 36 ≤ length)
    (hindex : index < (length - 36) / entrySize extended) :
    Within (entryPointer memory root extended index) (span root length) fun _ => True := by
  have hinside := entry_inside hlength hindex
  cases extended with
  | true =>
    refine (readNumber_within ?_).mono fun _ _ => trivial
    exact span_subset (by omega) (by simp only [entrySize, if_true] at hinside; omega)
  | false =>
    refine (readNumber_within ?_).mono fun _ _ => trivial
    exact span_subset (by omega) (by simp only [entrySize, Bool.false_eq_true, if_false] at hinside; omega)

theorem entryPointer_eq (hwindow : ∀ a, readable a = true → a < window) {root length index : ℕ} {extended : Bool}
    (hlength : 36 ≤ length) (hindex : index < (length - 36) / entrySize extended)
    (hcovers : Covers readable (span root length)) :
    entryPointer memory root extended index readable = .ok (pointerAt memory root extended index) := by
  have hinside := entry_inside hlength hindex
  cases extended with
  | true =>
    refine readNumber_eq hwindow (by decide) (hcovers.mono ?_)
    exact span_subset (by omega) (by simp only [entrySize, if_true] at hinside; omega)
  | false =>
    refine readNumber_eq hwindow (by decide) (hcovers.mono ?_)
    exact span_subset (by omega) (by simp only [entrySize, Bool.false_eq_true, if_false] at hinside; omega)

end Again

/-! ## The tables that are read -/

/-- A table of which some bytes are read. -/
structure Visit where
  address : ℕ
  extent : ℕ

section Visits

variable (memory)

/-- The tables that the root table lists, up to the first MADT. -/
def entryVisits (root : ℕ) (extended : Bool) : List ℕ → List Visit
  | [] => []
  | index :: rest =>
    let entry := pointerAt memory root extended index
    if window ≤ entry then []
    else
      ⟨entry, tableExtent memory entry madtSignature 44⟩ ::
        match tableAt memory entry madtSignature 44 with
        | some .foreign => entryVisits root extended rest
        | _ => []

/-- The root table and those that it lists. -/
def rootVisits (root : ℕ) (extended : Bool) : List Visit :=
  if window ≤ root then []
  else
    ⟨root, tableExtent memory root (rootSignature extended) 36⟩ ::
      match tableAt memory root (rootSignature extended) 36 with
      | some (.valid length) =>
        entryVisits memory root extended (List.range ((length - 36) / entrySize extended))
      | _ => []

/-- The root pointer and the tables that it leads to. -/
def visits (address : ℕ) : List Visit :=
  if window ≤ address then []
  else
    ⟨address, rsdpExtent memory address⟩ ::
      match rsdpAt memory address with
      | some true => rootVisits memory (rootAt memory address).1 (rootAt memory address).2
      | _ => []

end Visits

/-- What is read of each table is mapped, once the first page of it and of those before it has been mapped if it
can be. -/
def Covered : KernelMap → List Visit → Prop
  | _, [] => True
  | s, visit :: rest =>
    Covers (s.mapPage visit.address).isMapped (span visit.address visit.extent) ∧
      Covered (s.mapPage visit.address) rest

theorem isMapped_lt (s : KernelMap) (a : ℕ) (h : s.isMapped a = true) : a < window :=
  of_decide_eq_true ((Bool.and_eq_true _ _).mp h).1

theorem mappedAddress_ok {address : ℕ} (h : ¬ window ≤ address) : mappedAddress s address = .ok (s.mapPage address) :=
  if_neg h

theorem mappedAddress_panics {address : ℕ} (h : window ≤ address) : mappedAddress s address = .error .panicked :=
  if_pos h

/-- The walk over the root table reads mapped bytes if what it reads of the tables listed is mapped. -/
theorem walkRoot_noFault_iff {root length : ℕ} {extended : Bool} (hlength : 36 ≤ length)
    {indices : List ℕ} (hindices : ∀ index ∈ indices, index < (length - 36) / entrySize extended)
    (hcovers : Covers s.isMapped (span root length)) :
    NoFault (walkRoot memory root extended s indices) ↔
      Covered s (entryVisits memory root extended indices) := by
  induction indices generalizing s with
  | nil => exact ⟨fun _ => trivial, fun _ => NoFault.ok _⟩
  | cons index rest ih =>
    have hpointer : entryPointer memory root extended index s.isMapped =
        .ok (pointerAt memory root extended index) :=
      entryPointer_eq (isMapped_lt s) hlength (hindices index List.mem_cons_self) hcovers
    rw [walkRoot, hpointer, entryVisits]
    dsimp only [bind, Except.bind]
    by_cases hwindow : window ≤ pointerAt memory root extended index
    · rw [if_pos hwindow, mappedAddress_panics hwindow]
      exact ⟨fun _ => trivial, fun _ => NoFault.panicked⟩
    rw [if_neg hwindow, mappedAddress_ok hwindow]
    refine (checkTable_exact rfl (by decide)).noFault_iff.trans (and_congr_right fun hentry => ?_)
    have hrest := ih (fun i hi => hindices i (List.mem_cons_of_mem _ hi))
      (fun a ha => isMapped_mono (hcovers a ha) (pointerAt memory root extended index))
    cases htable : tableAt memory (pointerAt memory root extended index) madtSignature 44 with
    | none => exact ⟨fun _ => trivial, fun _ => (by simp)⟩
    | some check =>
      cases check with
      | foreign =>
        constructor
        · exact fun h => hrest.mp (h _ rfl)
        · rintro h _ ⟨⟩
          exact hrest.mpr h
      | invalid =>
        refine ⟨fun _ => trivial, ?_⟩
        rintro - _ ⟨⟩
        exact NoFault.ok _
      | valid length' =>
        refine ⟨fun _ => trivial, ?_⟩
        rintro - _ ⟨⟩
        -- the MADT has been read for its checksum
        obtain ⟨hextent, -, hlong, -⟩ := tableAt_valid htable
        rw [hextent] at hentry
        exact (parseMadt_within hlong).noFault hentry

/-- What follows the root pointer. -/
theorem root_noFault_iff (memory : ℕ → UInt8) (s : KernelMap) (root : ℕ) (extended : Bool) :
    NoFault (do
      let s ← mappedAddress s root
      match ← checkTable memory root (rootSignature extended) 36 s.isMapped with
      | .valid length => walkRoot memory root extended s (List.range ((length - 36) / entrySize extended))
      | _ => return .error .invalidRootTable) ↔
      Covered s (rootVisits memory root extended) := by
  unfold rootVisits
  by_cases hwindow : window ≤ root
  · rw [if_pos hwindow, mappedAddress_panics hwindow]
    exact ⟨fun _ => trivial, fun _ => NoFault.panicked⟩
  rw [if_neg hwindow, mappedAddress_ok hwindow]
  have hsignature : (rootSignature extended).length = 4 := by cases extended <;> rfl
  refine (checkTable_exact hsignature (by decide)).noFault_iff.trans (and_congr_right fun hroot => ?_)
  cases htable : tableAt memory root (rootSignature extended) 36 with
  | none => exact ⟨fun _ => trivial, fun _ => (by simp)⟩
  | some check =>
    cases check with
    | foreign =>
      refine ⟨fun _ => trivial, ?_⟩
      rintro - _ ⟨⟩
      exact NoFault.ok _
    | invalid =>
      refine ⟨fun _ => trivial, ?_⟩
      rintro - _ ⟨⟩
      exact NoFault.ok _
    | valid length =>
      obtain ⟨hextent, -, hlong, -⟩ := tableAt_valid htable
      rw [hextent] at hroot
      have hwalk : NoFault (walkRoot memory root extended (s.mapPage root)
          (List.range ((length - 36) / entrySize extended))) ↔ Covered (s.mapPage root)
          (entryVisits memory root extended (List.range ((length - 36) / entrySize extended))) :=
        walkRoot_noFault_iff hlong (fun _ hindex => List.mem_range.mp hindex) hroot
      constructor
      · exact fun h => hwalk.mp (h _ rfl)
      · rintro h _ ⟨⟩
        exact hwalk.mpr h

/-- Parsing reads mapped bytes exactly if the bytes that are read of each table are covered. -/
theorem parseRsdp_noFault_iff (memory : ℕ → UInt8) (s : KernelMap) (address : ℕ) :
    NoFault (parseRsdp memory s address) ↔ Covered s (visits memory address) := by
  unfold parseRsdp visits
  by_cases hwindow : window ≤ address
  · rw [if_pos hwindow, mappedAddress_panics hwindow]
    exact ⟨fun _ => trivial, fun _ => NoFault.panicked⟩
  rw [if_neg hwindow, mappedAddress_ok hwindow]
  refine (rsdpValid_exact address).noFault_iff.trans (and_congr_right fun hrsdp => ?_)
  cases hvalid : rsdpAt memory address with
  | none => exact ⟨fun _ => trivial, fun _ => (by simp)⟩
  | some valid =>
    cases valid with
    | false =>
      refine ⟨fun _ => trivial, ?_⟩
      rintro - _ ⟨⟩
      exact NoFault.ok _
    | true =>
      have hroot := rootTable_eq (isMapped_lt (s.mapPage address)) hvalid hrsdp
      simp only [Option.some.injEq, forall_eq', Bool.not_true, Bool.false_eq_true, if_false, hroot]
      exact root_noFault_iff memory (s.mapPage address) _ _

/-! ## What is listed -/

/-- The first MADT that the root table lists. -/
structure IsMadt (memory : ℕ → UInt8) (rsdp madt : ℕ) : Prop where
  found : ∃ length, tableAt memory (rootAt memory rsdp).1 (rootSignature (rootAt memory rsdp).2) 36 =
      some (.valid length) ∧
    ((List.range ((length - 36) / entrySize (rootAt memory rsdp).2)).map
      (pointerAt memory (rootAt memory rsdp).1 (rootAt memory rsdp).2)).find?
        (textAt memory · madtSignature) = some madt

/-- The walk parses the first MADT. -/
theorem walkRoot_lists {root length : ℕ} {extended : Bool} (hlength : 36 ≤ length)
    {indices : List ℕ} (hindices : ∀ index ∈ indices, index < (length - 36) / entrySize extended)
    (hcovers : Covers s.isMapped (span root length)) {t : InterruptTopology}
    (h : walkRoot memory root extended s indices = .ok (.ok t)) :
    ∃ madt, (indices.map (pointerAt memory root extended)).find? (textAt memory · madtSignature) = some madt ∧
      Lists memory madt (lengthAt memory madt) t := by
  induction indices generalizing s with
  | nil => cases h
  | cons index rest ih =>
    have hpointer : entryPointer memory root extended index s.isMapped =
        .ok (pointerAt memory root extended index) :=
      entryPointer_eq (isMapped_lt s) hlength (hindices index List.mem_cons_self) hcovers
    rw [walkRoot, hpointer] at h
    dsimp only [bind, Except.bind] at h
    by_cases hwindow : window ≤ pointerAt memory root extended index
    · rw [mappedAddress_panics hwindow] at h
      contradiction
    rw [mappedAddress_ok hwindow] at h
    obtain ⟨hentry, check, htable, hnext⟩ := (checkTable_exact rfl (by decide)).of_bind_ok h
    rw [List.map_cons, List.find?_cons]
    cases check with
    | foreign =>
      rw [textAt_of_tableAt.mp htable]
      exact ih (fun i hi => hindices i (List.mem_cons_of_mem _ hi))
        (fun a ha => isMapped_mono (hcovers a ha) (pointerAt memory root extended index)) hnext
    | invalid => cases hnext
    | valid length' =>
      obtain ⟨hextent, heq, hlong, htext⟩ := tableAt_valid htable
      rw [hextent] at hentry
      rw [htext]
      refine ⟨_, rfl, ?_⟩
      rw [← heq]
      exact (parseMadt_within hlong).of_ok hentry hnext t rfl

/-- A topology that is returned lists the entries of the first MADT. -/
theorem parseRsdp_lists {address : ℕ} {t : InterruptTopology} (h : parseRsdp memory s address = .ok (.ok t)) :
    ∃ madt, IsMadt memory address madt ∧ Lists memory madt (lengthAt memory madt) t := by
  unfold parseRsdp at h
  by_cases hwindow : window ≤ address
  · rw [mappedAddress_panics hwindow] at h
    contradiction
  rw [mappedAddress_ok hwindow] at h
  obtain ⟨hrsdp, valid, hvalid, h⟩ := (rsdpValid_exact address).of_bind_ok h
  cases valid with
  | false => cases h
  | true =>
    have hroot := rootTable_eq (isMapped_lt (s.mapPage address)) hvalid hrsdp
    simp only [Bool.not_true, Bool.false_eq_true, if_false, hroot] at h
    dsimp only [bind, Except.bind] at h
    by_cases hwindow' : window ≤ (rootAt memory address).1
    · rw [mappedAddress_panics hwindow'] at h
      contradiction
    rw [mappedAddress_ok hwindow'] at h
    have hsignature : (rootSignature (rootAt memory address).2).length = 4 := by
      cases (rootAt memory address).2 <;> rfl
    obtain ⟨htable, check, hcheck, h⟩ := (checkTable_exact hsignature (by decide)).of_bind_ok h
    cases check with
    | foreign => cases h
    | invalid => cases h
    | valid length =>
      obtain ⟨hextent, -, hlong, -⟩ := tableAt_valid hcheck
      rw [hextent] at htable
      obtain ⟨madt, hfound, hlists⟩ := walkRoot_lists hlong (fun index hindex => List.mem_range.mp hindex) htable h
      exact ⟨madt, ⟨length, hcheck, hfound⟩, hlists⟩

/-! ## Reading the tables -/

/-- Every byte that is read is mapped, the walks stay inside their tables, and a topology lists what the MADT
has. -/
structure ReadsSafely (memory : ℕ → UInt8) (s : KernelMap) (address : ℕ) : Prop where
  mapped : NoFault (parseRsdp memory s address)
  rootInside : ∀ root extended length, 36 ≤ length → ∀ index < (length - 36) / entrySize extended,
    Within (entryPointer memory root extended index) (span root length) fun _ => True
  madtInside : ∀ madt length, 44 ≤ length →
    Within (parseMadt memory madt length) (span madt length) fun _ => True
  listed : ∀ t, parseRsdp memory s address = .ok (.ok t) →
    ∃ madt, IsMadt memory address madt ∧ Lists memory madt (lengthAt memory madt) t

theorem readsSafely_iff (memory : ℕ → UInt8) (s : KernelMap) (address : ℕ) :
    ReadsSafely memory s address ↔ Covered s (visits memory address) := by
  rw [← parseRsdp_noFault_iff]
  constructor
  · exact fun h => h.mapped
  · intro h
    refine ⟨h, fun _ _ _ hlength _ hindex => entryPointer_within hlength hindex, fun _ _ hlength => ?_,
      fun _ => parseRsdp_lists⟩
    exact (parseMadt_within hlength).mono fun _ _ => trivial

/-! ## A root pointer over two pages -/

/-- A valid root pointer, sixteen bytes before the end of a page. -/
def splitRsdp (address : ℕ) : UInt8 :=
  if address < 0x7ff0 then 0 else ((rsdpSignature ++ [0xe1])[address - 0x7ff0]?).getD 0

/-- No page is mapped, and there are frames for tables. -/
def bareMap : KernelMap :=
  { gigabytes := fun _ => .absent, frames := 16 }

/-- The page after the one it starts in is read and not mapped. -/
theorem splitRsdp_fault : ¬ ReadsSafely splitRsdp bareMap 0x7ff0 := by
  intro h
  have hfault : parseRsdp splitRsdp bareMap 0x7ff0 = .error (.faulted 0x8000) := by rfl
  exact h.mapped _ hfault

end SaeOS.Acpi
