import SaeOS.Arch.Acpi

/-!
# What is read of the ACPI tables

Each table is read up to an extent that its own bytes tell. So which bytes are read is a matter of the memory, and
whether they are mapped one of the pages that are mapped beforehand and of those that are mapped on the way.
-/

namespace SaeOS.Acpi

open Reading DirectMap

variable {memory : ℕ → UInt8} {bytes : Set ℕ}

/-! ## One table -/

/-- The bytes of a number whose address is computed, and its value. -/
theorem readNumber_exact (n address : ℕ) (h : address < window) :
    Exact (readNumber memory n address) (span address n) (some (numberAt memory address n)) := by
  rw [readNumber, if_neg (Nat.not_le.mpr h)]
  exact Exact.number memory address n

theorem readNumber_panics (n : ℕ) {address : ℕ} (h : window ≤ address) :
    Exact (readNumber memory n address) ∅ none := by
  rw [readNumber, if_pos h]
  exact Exact.panics

theorem checksumOk_exact (address length : ℕ) :
    Exact (checksumOk memory address length) (span address length)
      (some (decide (sumAt memory address length 0 = 0))) :=
  (Exact.sum memory address length 0).bind_empty (Exact.pure _)

theorem signatureEquals_exact (memory : ℕ → UInt8) (address : ℕ) (signature : List UInt8) :
    Exact (signatureEquals memory address signature) (span address (compared memory address signature))
      (some (textAt memory address signature)) :=
  Exact.startsWith memory address signature

section Extents

variable (memory)

/-- The length that a table records. -/
def lengthAt (address : ℕ) : ℕ :=
  numberAt memory (address + 4) 4

/-- What a table is, unless its length has no address. -/
def tableAt (address : ℕ) (signature : List UInt8) (shortest : ℕ) : Option TableCheck :=
  if textAt memory address signature = false then some .foreign
  else if window ≤ address + 4 then none
  else if lengthAt memory address < shortest then some .invalid
  else if sumAt memory address (lengthAt memory address) 0 = 0 then some (.valid (lengthAt memory address))
  else some .invalid

/-- How many bytes of a table are read to find that out. -/
def tableExtent (address : ℕ) (signature : List UInt8) (shortest : ℕ) : ℕ :=
  if textAt memory address signature = false then compared memory address signature
  else if window ≤ address + 4 then signature.length
  else if lengthAt memory address < shortest then 8
  else lengthAt memory address

/-- The root pointer is valid, unless its length has no address. -/
def rsdpAt (address : ℕ) : Option Bool :=
  if textAt memory address rsdpSignature = false then some false
  else if sumAt memory address 20 0 ≠ 0 then some false
  else if memory (address + 15) < 2 then some true
  else if window ≤ address + 20 then none
  else if numberAt memory (address + 20) 4 < 36 then some false
  else some (decide (sumAt memory address (numberAt memory (address + 20) 4) 0 = 0))

/-- How many bytes of the root pointer are read to find that out. -/
def rsdpExtent (address : ℕ) : ℕ :=
  if textAt memory address rsdpSignature = false then compared memory address rsdpSignature
  else if sumAt memory address 20 0 ≠ 0 then 20
  else if memory (address + 15) < 2 then 20
  else if window ≤ address + 20 then 20
  else if numberAt memory (address + 20) 4 < 36 then 24
  else numberAt memory (address + 20) 4

/-- The root table, and whether it is the extended one. -/
def rootAt (rsdp : ℕ) : ℕ × Bool :=
  if 2 ≤ memory (rsdp + 15) ∧ numberAt memory (rsdp + 24) 8 ≠ 0 then (numberAt memory (rsdp + 24) 8, true)
  else (numberAt memory (rsdp + 16) 4, false)

/-- One entry of the root table. -/
def pointerAt (root : ℕ) (extended : Bool) (index : ℕ) : ℕ :=
  if extended then numberAt memory (root + 36 + index * 8) 8 else numberAt memory (root + 36 + index * 4) 4

end Extents

theorem checkTable_exact {address shortest : ℕ} {signature : List UInt8} (hsignature : signature.length = 4)
    (hshortest : 8 ≤ shortest) :
    Exact (checkTable memory address signature shortest) (span address (tableExtent memory address signature shortest))
      (tableAt memory address signature shortest) := by
  have htext := signatureEquals_exact memory address signature
  unfold checkTable tableExtent tableAt
  by_cases hforeign : textAt memory address signature = false
  · rw [if_pos hforeign, if_pos hforeign]
    rw [hforeign] at htext
    exact htext.bind_empty (Exact.pure _)
  rw [if_neg hforeign, if_neg hforeign]
  rw [Bool.not_eq_false] at hforeign
  rw [hforeign, compared_of_textAt memory hforeign] at htext
  by_cases hwindow : window ≤ address + 4
  · rw [if_pos hwindow, if_pos hwindow]
    exact htext.bind_empty ((readNumber_panics 4 hwindow).bind_panics _)
  rw [if_neg hwindow, if_neg hwindow]
  have hnumber : Exact (readU32 memory (address + 4)) (span (address + 4) 4) (some (lengthAt memory address)) :=
    readNumber_exact 4 _ (Nat.not_le.mp hwindow)
  by_cases hshort : lengthAt memory address < shortest
  · rw [if_pos hshort, if_pos hshort]
    refine (htext.bind _ (hnumber.bind_empty ?_)).congr ?_
    · rw [if_pos hshort]
      exact Exact.pure _
    · ext b
      rw [Set.mem_union, mem_span, mem_span, mem_span, hsignature]
      omega
  rw [if_neg hshort, if_neg hshort]
  have hsum : Exact (checksumOk memory address (lengthAt memory address)) (span address (lengthAt memory address)) _ :=
    checksumOk_exact address (lengthAt memory address)
  refine (htext.bind _ (hnumber.bind (span address (lengthAt memory address)) ?_)).congr ?_
  · rw [if_neg hshort]
    by_cases hzero : sumAt memory address (lengthAt memory address) 0 = 0
    · rw [if_pos hzero]
      rw [decide_eq_true hzero] at hsum
      exact hsum.bind_empty (Exact.pure _)
    · rw [if_neg hzero]
      rw [decide_eq_false hzero] at hsum
      exact hsum.bind_empty (Exact.pure _)
  · ext b
    rw [Set.mem_union, Set.mem_union, mem_span, mem_span, mem_span, hsignature]
    omega

/-- Reading the root pointer. -/
theorem rsdpValid_exact (address : ℕ) :
    Exact (rsdpValid memory address) (span address (rsdpExtent memory address)) (rsdpAt memory address) := by
  have htext := signatureEquals_exact memory address rsdpSignature
  unfold rsdpValid rsdpExtent rsdpAt
  by_cases hforeign : textAt memory address rsdpSignature = false
  · rw [if_pos hforeign, if_pos hforeign]
    rw [hforeign] at htext
    exact htext.bind_empty (Exact.pure _)
  rw [if_neg hforeign, if_neg hforeign]
  rw [Bool.not_eq_false] at hforeign
  rw [hforeign, compared_of_textAt memory hforeign] at htext
  have hlength : rsdpSignature.length = 8 := rfl
  have hsum : Exact (checksumOk memory address 20) (span address 20) _ := checksumOk_exact address 20
  by_cases hzero : sumAt memory address 20 0 ≠ 0
  · rw [if_pos hzero, if_pos hzero]
    rw [decide_eq_false hzero] at hsum
    refine (htext.bind _ (hsum.bind_empty ?_)).congr ?_
    · exact Exact.pure _
    · ext b
      rw [Set.mem_union, mem_span, mem_span, hlength]
      omega
  rw [if_neg hzero, if_neg hzero]
  rw [decide_eq_true (not_not.mp hzero)] at hsum
  have hrevision := Exact.load memory (address + 15)
  by_cases hold : memory (address + 15) < 2
  · rw [if_pos hold, if_pos hold]
    refine (htext.bind _ (hsum.bind _ (hrevision.bind_empty ?_))).congr ?_
    · rw [if_neg (UInt8.not_le.mpr hold)]
      exact Exact.pure _
    · ext b
      rw [Set.mem_union, Set.mem_union, Set.mem_singleton_iff, mem_span, mem_span, hlength]
      omega
  rw [if_neg hold, if_neg hold]
  by_cases hwindow : window ≤ address + 20
  · rw [if_pos hwindow, if_pos hwindow]
    refine (htext.bind _ (hsum.bind _ (hrevision.bind_empty ?_))).congr ?_
    · rw [if_pos (UInt8.not_lt.mp hold)]
      exact (readNumber_panics 4 hwindow).bind_panics _
    · ext b
      rw [Set.mem_union, Set.mem_union, Set.mem_singleton_iff, mem_span, mem_span, hlength]
      omega
  rw [if_neg hwindow, if_neg hwindow]
  have hnumber : Exact (readU32 memory (address + 20)) (span (address + 20) 4)
      (some (numberAt memory (address + 20) 4)) :=
    readNumber_exact 4 _ (Nat.not_le.mp hwindow)
  -- the bytes of the length, and then all of the table if it is long enough
  by_cases hshort : numberAt memory (address + 20) 4 < 36
  · rw [if_pos hshort, if_pos hshort]
    have hrest : Exact (readU32 memory (address + 20) >>= fun length =>
        if 36 ≤ length then checksumOk memory address length else pure false) (span (address + 20) 4)
        (some false) := by
      refine hnumber.bind_empty ?_
      rw [if_neg (Nat.not_le.mpr hshort)]
      exact Exact.pure _
    refine (htext.bind _ (hsum.bind _ (hrevision.bind (span (address + 20) 4) ?_))).congr ?_
    · rw [if_pos (UInt8.not_lt.mp hold)]
      exact hrest
    · ext b
      rw [Set.mem_union, Set.mem_union, Set.mem_union, Set.mem_singleton_iff, mem_span, mem_span, mem_span,
        mem_span, hlength]
      omega
  · rw [if_neg hshort, if_neg hshort]
    have hrest : Exact (readU32 memory (address + 20) >>= fun length =>
        if 36 ≤ length then checksumOk memory address length else pure false)
        (span (address + 20) 4 ∪ span address (numberAt memory (address + 20) 4))
        (some (decide (sumAt memory address (numberAt memory (address + 20) 4) 0 = 0))) := by
      refine hnumber.bind _ ?_
      rw [if_pos (Nat.not_lt.mp hshort)]
      exact checksumOk_exact address _
    refine (htext.bind _ (hsum.bind _ (hrevision.bind
      (span (address + 20) 4 ∪ span address (numberAt memory (address + 20) 4)) ?_))).congr ?_
    · rw [if_pos (UInt8.not_lt.mp hold)]
      exact hrest
    · ext b
      rw [Set.mem_union, Set.mem_union, Set.mem_union, Set.mem_union, Set.mem_singleton_iff, mem_span, mem_span,
        mem_span, mem_span, hlength]
      omega

/-! ## The MADT -/

theorem readNumber_within {n address : ℕ} (h : span address n ⊆ bytes) :
    Within (readNumber memory n address) bytes fun value => value = numberAt memory address n := by
  by_cases hwindow : address < window
  · exact ((readNumber_exact n address hwindow).within h).mono fun value heq => (Option.some.inj heq).symm
  · intro readable _
    rw [readNumber, if_pos (Nat.not_lt.mp hwindow)]
    exact .inl rfl

/-- The entries of a MADT from an offset on, with their lengths. -/
inductive MadtEntries (memory : ℕ → UInt8) (address length : ℕ) : ℕ → List (ℕ × ℕ) → Prop
  | done {offset : ℕ} (hend : length < offset + 2) : MadtEntries memory address length offset []
  | entry {offset : ℕ} {rest : List (ℕ × ℕ)} (hfits : offset + 2 ≤ length)
    (hlong : 2 ≤ (memory (address + offset + 1)).toNat)
    (hinside : offset + (memory (address + offset + 1)).toNat ≤ length)
    (hrest : MadtEntries memory address length (offset + (memory (address + offset + 1)).toNat) rest) :
    MadtEntries memory address length offset ((address + offset, (memory (address + offset + 1)).toNat) :: rest)

section Kept

variable (memory)

/-- A full-length I/O APIC entry. -/
def keptIoapic (entry : ℕ × ℕ) : Option IoApicInfo :=
  if memory entry.1 = 1 ∧ 12 ≤ entry.2 then
    some { id := memory (entry.1 + 2), address := numberAt memory (entry.1 + 4) 4
           gsiBase := numberAt memory (entry.1 + 8) 4 }
  else none

/-- A full-length override of an ISA interrupt. -/
def keptOverride (entry : ℕ × ℕ) : Option InterruptOverride :=
  if (memory entry.1 = 2 ∧ 10 ≤ entry.2) ∧ memory (entry.1 + 2) = 0 then
    some { sourceIrq := memory (entry.1 + 3), gsi := numberAt memory (entry.1 + 4) 4
           flags := numberAt memory (entry.1 + 8) 2 }
  else none

/-- A topology with what one entry adds. -/
def addKept (topology : InterruptTopology) (entry : ℕ × ℕ) : InterruptTopology :=
  { topology with
    ioapics := topology.ioapics ++ (keptIoapic memory entry).toList
    overrides := topology.overrides ++ (keptOverride memory entry).toList }

end Kept

theorem readIoapic_within {entry : ℕ} (h : span entry 12 ⊆ bytes) :
    Within (readIoapic memory entry) bytes fun ioapic =>
      ioapic = ⟨memory (entry + 2), numberAt memory (entry + 4) 4, numberAt memory (entry + 8) 4⟩ := by
  refine (Within.load memory (h ⟨by omega, by omega⟩)).bind ?_
  rintro _ rfl
  refine (readNumber_within ((span_subset_add (by omega)).trans h)).bind ?_
  rintro _ rfl
  refine (readNumber_within ((span_subset_add (by omega)).trans h)).bind ?_
  rintro _ rfl
  exact Within.pure rfl

theorem readOverride_within {entry : ℕ} (h : span entry 10 ⊆ bytes) :
    Within (readOverride memory entry) bytes fun override =>
      override = ⟨memory (entry + 3), numberAt memory (entry + 4) 4, numberAt memory (entry + 8) 2⟩ := by
  refine (Within.load memory (h ⟨by omega, by omega⟩)).bind ?_
  rintro _ rfl
  refine (readNumber_within ((span_subset_add (by omega)).trans h)).bind ?_
  rintro _ rfl
  refine (readNumber_within ((span_subset_add (by omega)).trans h)).bind ?_
  rintro _ rfl
  exact Within.pure rfl

/-- One entry reads its own bytes, and adds itself if it is kept. -/
theorem addEntry_within {entry entryLength : ℕ} (h : span entry entryLength ⊆ bytes)
    (topology : InterruptTopology) :
    Within (addEntry memory entry (memory entry) entryLength topology) bytes fun added =>
      ∀ t, added = .ok t → t = addKept memory topology (entry, entryLength) := by
  unfold addEntry addKept keptIoapic keptOverride
  dsimp only
  by_cases hioapic : memory entry = 1 ∧ 12 ≤ entryLength
  · have hother : ¬ ((memory entry = 2 ∧ 10 ≤ entryLength) ∧ memory (entry + 2) = 0) := by
      rintro ⟨⟨htwo, -⟩, -⟩
      exact absurd (hioapic.1.symm.trans htwo) (by decide)
    rw [if_pos hioapic, if_pos hioapic, if_neg hother]
    split
    · exact Within.pure fun t ht => (absurd ht (by simp))
    · refine (readIoapic_within ((span_subset le_rfl (by omega)).trans h)).bind ?_
      rintro _ rfl
      refine Within.pure ?_
      rintro _ ⟨⟩
      simp
  rw [if_neg hioapic, if_neg hioapic]
  by_cases hoverride : memory entry = 2 ∧ 10 ≤ entryLength
  · rw [if_pos hoverride]
    refine (Within.load memory (h ⟨by omega, by omega⟩)).bind ?_
    rintro _ rfl
    by_cases hbus : memory (entry + 2) = 0
    · have hkept : (memory entry = 2 ∧ 10 ≤ entryLength) ∧ memory (entry + 2) = 0 := ⟨hoverride, hbus⟩
      rw [if_pos hbus, if_pos hkept]
      split
      · exact Within.pure fun t ht => (absurd ht (by simp))
      · refine (readOverride_within ((span_subset le_rfl (by omega)).trans h)).bind ?_
        rintro _ rfl
        refine Within.pure ?_
        rintro _ ⟨⟩
        simp
    · rw [if_neg hbus, if_neg fun hin => hbus hin.2]
      refine Within.pure ?_
      rintro _ ⟨⟩
      simp
  · rw [if_neg hoverride, if_neg fun hin => hoverride hin.1]
    refine Within.pure ?_
    rintro _ ⟨⟩
    simp

/-- The loop reads the bytes up to the length, and adds the entries from its offset on. -/
theorem madtFrom_within {address length offset : ℕ} (topology : InterruptTopology) :
    Within (madtFrom memory address length offset topology) (span address length) fun parsed =>
      ∀ t, parsed = .ok t → ∃ entries, MadtEntries memory address length offset entries ∧
        t.lapicAddress = topology.lapicAddress ∧
        t.ioapics = topology.ioapics ++ entries.filterMap (keptIoapic memory) ∧
        t.overrides = topology.overrides ++ entries.filterMap (keptOverride memory) := by
  induction hleft : length - offset using Nat.strong_induction_on generalizing offset topology with
  | _ left ih =>
    rw [madtFrom]
    by_cases hfits : offset + 2 ≤ length
    · rw [if_pos hfits]
      refine (Within.load memory (mem_span.mpr ⟨by omega, by omega⟩)).bind ?_
      rintro _ rfl
      refine (Within.load memory (mem_span.mpr ⟨by omega, by omega⟩)).bind ?_
      rintro _ rfl
      by_cases hbad : (memory (address + offset + 1)).toNat < 2 ∨
          length < offset + (memory (address + offset + 1)).toNat
      · rw [if_pos hbad]
        exact Within.pure fun t ht => (absurd ht (by simp))
      rw [if_neg hbad]
      rw [not_or, Nat.not_lt, Nat.not_lt] at hbad
      refine (addEntry_within (span_subset_add hbad.2) topology).bind ?_
      intro added hadded
      cases added with
      | error error => exact Within.pure fun t ht => (absurd ht (by simp))
      | ok topology' =>
        -- the entry is the first of those from here on
        obtain rfl := hadded topology' rfl
        refine (ih _ (by omega) _ rfl).mono fun parsed hparsed t ht => ?_
        obtain ⟨rest, hrest, hlapic, hioapics, hoverrides⟩ := hparsed t ht
        refine ⟨_, .entry hfits hbad.1 hbad.2 hrest, hlapic, ?_, ?_⟩
        · rw [hioapics, addKept, List.append_assoc, List.filterMap_cons]
          cases keptIoapic memory (address + offset, (memory (address + offset + 1)).toNat) <;> rfl
        · rw [hoverrides, addKept, List.append_assoc, List.filterMap_cons]
          cases keptOverride memory (address + offset, (memory (address + offset + 1)).toNat) <;> rfl
    · rw [if_neg hfits]
      split
      · exact Within.pure fun t ht => (absurd ht (by simp))
      · refine Within.pure ?_
        rintro _ ⟨⟩
        exact ⟨[], .done (Nat.not_le.mp hfits), rfl, (List.append_nil _).symm, (List.append_nil _).symm⟩

/-- A topology lists the kept entries of a MADT. -/
structure Lists (memory : ℕ → UInt8) (address length : ℕ) (t : InterruptTopology) : Prop where
  lapicAddress : t.lapicAddress = numberAt memory (address + 36) 4
  entries : ∃ entries, MadtEntries memory address length 44 entries ∧
    t.ioapics = entries.filterMap (keptIoapic memory) ∧ t.overrides = entries.filterMap (keptOverride memory)

/-- Parsing a MADT reads the bytes of its length, and lists its entries. -/
theorem parseMadt_within {address length : ℕ} (hlength : 44 ≤ length) :
    Within (parseMadt memory address length) (span address length) fun parsed =>
      ∀ t, parsed = .ok t → Lists memory address length t := by
  refine (readNumber_within (span_subset_add (by omega))).bind ?_
  rintro _ rfl
  refine (madtFrom_within _).mono fun parsed hparsed t ht => ?_
  obtain ⟨entries, hentries, hlapic, hioapics, hoverrides⟩ := hparsed t ht
  exact ⟨hlapic, entries, hentries, hioapics, hoverrides⟩

end SaeOS.Acpi
