import SaeOS.Drivers.PciBars

/-!
# What reading a function does to its registers

Reading a function probes its base address registers one after the other, between two writes of its
command register. Of the registers afterwards, of those in between, and of what was read, this is
what the scan needs.
-/

namespace SaeOS.Pci

variable {c c' : ConfigSpace} {address : Address} {offset : ℕ}

namespace Registers

variable (r : Registers)

theorem set_self (address : Address) (offset : ℕ) (value : BitVec 32) :
    r.set address offset value address offset = value :=
  if_pos ⟨rfl, rfl⟩

theorem set_ne {a : Address} {o : ℕ} (value : BitVec 32) (h : ¬ (a = address ∧ o = offset)) :
    r.set address offset value a o = r a o :=
  if_neg h

theorem set_set (address : Address) (offset : ℕ) (value value' : BitVec 32) :
    (r.set address offset value).set address offset value' = r.set address offset value' := by
  funext a o
  by_cases h : a = address ∧ o = offset
  · simp only [set, if_pos h]
  · rw [set_ne _ _ h, set_ne _ _ h, set_ne _ _ h]

end Registers

namespace Kind

variable (kind : Kind) (old : BitVec 32)

/-- Settling twice is settling once. -/
theorem settled_settled : kind.settled (kind.settled old) = kind.settled old := by
  rw [settled, settled, BitVec.and_assoc, BitVec.and_self]

/-- What was cleared before is not seen by a probe. -/
theorem probed_settled : kind.probed (kind.settled old) = kind.probed old := by
  apply BitVec.eq_of_getLsbD_eq
  intro i hi
  rw [getLsbD_probed kind _ hi, getLsbD_probed kind _ hi, getLsbD_settled kind old hi,
    Bool.and_assoc,
    Bool.and_self]

theorem settled_of_plain (h : kind.clearing = 0) : kind.settled old = old := by
  rw [settled, h]
  exact BitVec.and_allOnes

end Kind

/-! ## One register -/

namespace ConfigSpace

/-- A register's value without the bits that a one clears. -/
def settledAt (c : ConfigSpace) (address : Address) (offset : ℕ) : BitVec 32 :=
  (c.kinds address offset).settled (c.registers address offset)

/-- What a probe of a register reads back. -/
def probedAt (c : ConfigSpace) (address : Address) (offset : ℕ) : BitVec 32 :=
  (c.kinds address offset).probed (c.registers address offset)

/-- What a function's command register holds while decoding is off. -/
def quiescedAt (c : ConfigSpace) (address : Address) : BitVec 32 :=
  (c.kinds address command).quiesced (c.registers address command)

theorem probe_eq (c : ConfigSpace) (address : Address) (offset : ℕ) :
    c.probe address offset = (c.registers address offset, c.probedAt address offset,
      { c with
        registers := c.registers.set address offset (c.settledAt address offset)
        history := c.history ++ [c.registers.set address offset (c.probedAt address offset),
          c.registers.set address offset (c.settledAt address offset)] }) := by
  simp only [probe, write32, read32, Registers.set_self, Registers.set_set, List.append_assoc,
    List.cons_append, List.nil_append]
  rw [show (c.kinds address offset).written
    ((c.kinds address offset).written (c.registers address offset)
    (BitVec.allOnes 32)) (c.registers address offset) = c.settledAt address offset from
    Kind.written_probed _ _]
  rfl

/-- Probe several registers of a function. -/
def probeAll (c : ConfigSpace) (address : Address) (offsets : List ℕ) : ConfigSpace :=
  offsets.foldl (fun c offset => (c.probe address offset).2.2) c

/-- The registers of a function at some offsets are settled, everything else stays. -/
def settle (c : ConfigSpace) (address : Address) (offsets : List ℕ) : Registers :=
  fun a o => if a = address ∧ o ∈ offsets then c.settledAt a o else c.registers a o

/-- The registers while some of a function's are probed. -/
structure Probing (c : ConfigSpace) (address : Address) (offsets : List ℕ) (r : Registers) :
    Prop where
  outside : ∀ a o, ¬ (a = address ∧ o ∈ offsets) → r a o = c.registers a o
  inside : ∀ o ∈ offsets,
    r address o = c.registers address o ∨ r address o = c.settledAt address o ∨
      r address o = c.probedAt address o

/-- The state after one probe. -/
def probed (c : ConfigSpace) (address : Address) (offset : ℕ) : ConfigSpace :=
  (c.probe address offset).2.2

/-- The registers while one is probed, and then. -/
def probeStates (c : ConfigSpace) (address : Address) (offset : ℕ) : List Registers :=
  [c.registers.set address offset (c.probedAt address offset),
    c.registers.set address offset (c.settledAt address offset)]

section OneProbe

variable (c : ConfigSpace) (address : Address) (offset : ℕ)

theorem kinds_probed : (c.probed address offset).kinds = c.kinds := by
  rw [probed, probe_eq]

theorem registers_probed :
    (c.probed address offset).registers = c.registers.set address offset
      (c.settledAt address offset) := by
  rw [probed, probe_eq]

theorem history_probed :
    (c.probed address offset).history = c.history ++ c.probeStates address offset := by
  rw [probed, probe_eq, probeStates]

/-- A probe changes neither what settling gives nor what probing finds. -/
theorem settledAt_probed (a : Address) (o : ℕ) :
    (c.probed address offset).settledAt a o = c.settledAt a o := by
  rw [settledAt, settledAt, kinds_probed, registers_probed]
  by_cases h : a = address ∧ o = offset
  · rw [h.1, h.2, Registers.set_self]
    exact Kind.settled_settled _ _
  · rw [Registers.set_ne _ _ h]

theorem probedAt_probed (a : Address) (o : ℕ) :
    (c.probed address offset).probedAt a o = c.probedAt a o := by
  rw [probedAt, probedAt, kinds_probed, registers_probed]
  by_cases h : a = address ∧ o = offset
  · rw [h.1, h.2, Registers.set_self]
    exact Kind.probed_settled _ _
  · rw [Registers.set_ne _ _ h]

end OneProbe

variable {offsets : List ℕ} {r : Registers}

theorem probing_of_mem_probeStates (h : r ∈ c.probeStates address offset) :
    c.Probing address (offset :: offsets) r := by
  obtain ⟨value, rfl, hvalue⟩ : ∃ value, r = c.registers.set address offset value ∧
      (value = c.settledAt address offset ∨ value = c.probedAt address offset) := by
    rcases List.mem_cons.mp h with rfl | hsecond
    · exact ⟨_, rfl, .inr rfl⟩
    · obtain rfl := List.mem_singleton.mp hsecond
      exact ⟨_, rfl, .inl rfl⟩
  constructor
  · intro a o hout
    exact Registers.set_ne _ _ fun h => hout ⟨h.1, h.2 ▸ List.mem_cons_self⟩
  · intro o _
    by_cases ho : o = offset
    · rw [ho, Registers.set_self]
      exact .inr hvalue
    · exact .inl (Registers.set_ne _ _ fun h => ho h.2)

/-- While later registers are probed, the first one is settled. -/
theorem Probing.of_probed (h : (c.probed address offset).Probing address offsets r) :
    c.Probing address (offset :: offsets) r := by
  have hsame : ∀ o, o ≠ offset →
    (c.probed address offset).registers address o = c.registers address o := by
    intro o ho
    rw [registers_probed, Registers.set_ne _ _ fun h => ho h.2]
  have hself : (c.probed address offset).registers address offset = c.settledAt address offset := by
    rw [registers_probed, Registers.set_self]
  have hkept : ∀ o, (c.probed address offset).registers address o = c.registers address o ∨
      (c.probed address offset).registers address o = c.settledAt address o := by
    intro o
    by_cases ho : o = offset
    · exact .inr (ho ▸ hself)
    · exact .inl (hsame o ho)
  constructor
  · intro a o hout
    have hne : ¬ (a = address ∧ o = offset) := fun hin => hout ⟨hin.1, hin.2 ▸ List.mem_cons_self⟩
    rw [h.outside a o fun hin => hout ⟨hin.1, List.mem_cons_of_mem _ hin.2⟩, registers_probed,
      Registers.set_ne _ _ hne]
  · intro o _
    by_cases hmem : o ∈ offsets
    · rcases h.inside o hmem with hold | hset | hprobe
      · rw [hold]
        exact (hkept o).imp_right .inl
      · exact .inr (.inl (hset.trans (settledAt_probed c address offset address o)))
      · exact .inr (.inr (hprobe.trans (probedAt_probed c address offset address o)))
    · rw [h.outside address o fun hin => hmem hin.2]
      exact (hkept o).imp_right .inl

theorem settle_cons : (c.probed address offset).settle address offsets =
    c.settle address (offset :: offsets) := by
  funext a o
  by_cases hin : a = address ∧ o ∈ offsets
  · rw [settle, settle, if_pos hin, if_pos ⟨hin.1, List.mem_cons_of_mem _ hin.2⟩, settledAt_probed]
  by_cases hfirst : a = address ∧ o = offset
  · obtain ⟨rfl, rfl⟩ := hfirst
    rw [settle, settle, if_neg hin, if_pos ⟨rfl, List.mem_cons_self⟩, registers_probed,
      Registers.set_self]
  · have hout : ¬ (a = address ∧ o ∈ offset :: offsets) := by
      rintro ⟨ha, hmem⟩
      rcases List.mem_cons.mp hmem with ho | ho
      · exact hfirst ⟨ha, ho⟩
      · exact hin ⟨ha, ho⟩
    rw [settle, settle, if_neg hin, if_neg hout, registers_probed, Registers.set_ne _ _ hfirst]

/-- Probing settles the registers probed, each of which is seen probed in between. -/
theorem probeAll_spec (c : ConfigSpace) (address : Address) (offsets : List ℕ) :
    (c.probeAll address offsets).kinds = c.kinds ∧
      (c.probeAll address offsets).registers = c.settle address offsets ∧
      ∃ states, (c.probeAll address offsets).history = c.history ++ states ∧
        (∀ r ∈ states, c.Probing address offsets r) ∧
        ∀ o ∈ offsets, ∃ r ∈ states, r address o = c.probedAt address o := by
  induction offsets generalizing c with
  | nil =>
    refine ⟨rfl, ?_, [], (List.append_nil _).symm, (by simp), (by simp)⟩
    funext a o
    exact (if_neg fun h => List.not_mem_nil h.2).symm
  | cons offset offsets ih =>
    have heq : c.probeAll address (offset :: offsets) =
      (c.probed address offset).probeAll address offsets := rfl
    obtain ⟨hkinds, hregisters, states, hhistory, hstates, hseen⟩ := ih (c.probed address offset)
    rw [heq]
    refine ⟨hkinds.trans (kinds_probed ..), hregisters.trans settle_cons,
      c.probeStates address offset ++ states,
      ?_, ?_, ?_⟩
    · rw [hhistory, history_probed, List.append_assoc]
    · intro r hr
      rcases List.mem_append.mp hr with hfirst | hlater
      · exact probing_of_mem_probeStates hfirst
      · exact (hstates r hlater).of_probed
    · intro o hmem
      rcases List.mem_cons.mp hmem with rfl | hlater
      · exact ⟨_, List.mem_append_left _ List.mem_cons_self, Registers.set_self ..⟩
      · obtain ⟨r, hr, hvalue⟩ := hseen o hlater
        exact ⟨r, List.mem_append_right _ hr, hvalue.trans (probedAt_probed ..)⟩

end ConfigSpace

/-! ## The base address registers of a function -/

/-- The offsets of a function's BARs from a slot on. -/
def barOffsets (slot count : ℕ) : List ℕ :=
  (List.range' slot (count - slot)).map fun slot => bar0 + slot * 4

theorem barOffsets_cons {slot count : ℕ} (h : slot < count) :
    barOffsets slot count = (bar0 + slot * 4) :: barOffsets (slot + 1) count := by
  obtain ⟨left, hleft⟩ : ∃ left, count - slot = left + 1 := ⟨count - slot - 1, by omega⟩
  have hnext : count - (slot + 1) = left := by omega
  rw [barOffsets, barOffsets, hleft, hnext, List.range'_succ, List.map_cons]

theorem mem_barOffsets {slot count o : ℕ} :
    o ∈ barOffsets slot count ↔ ∃ i, slot ≤ i ∧ i < count ∧ o = bar0 + i * 4 := by
  rw [barOffsets, List.mem_map]
  constructor
  · rintro ⟨i, hi, rfl⟩
    rw [List.mem_range'_1] at hi
    exact ⟨i, hi.1, by omega, rfl⟩
  · rintro ⟨i, hle, hlt, rfl⟩
    exact ⟨i, List.mem_range'_1.mpr ⟨hle, by omega⟩, rfl⟩

/-- Sizing a BAR probes its register, and that of the upper half if it has one and is not in the
last slot. -/
theorem sizeBar_space (c : ConfigSpace) (address : Address) (offset : ℕ) (lastSlot : Bool) :
    (sizeBar c address offset lastSlot).1.2 = 1 ∧
        (sizeBar c address offset lastSlot).2 = c.probeAll address [offset] ∨
      lastSlot = false ∧ (sizeBar c address offset lastSlot).1.2 = 2 ∧
        (sizeBar c address offset lastSlot).2 = c.probeAll address [offset, offset + 4] := by
  unfold sizeBar
  dsimp only
  split
  · exact .inl ⟨rfl, rfl⟩
  split
  · rename_i hwide
    rw [Bool.and_eq_true, Bool.not_eq_true'] at hwide
    exact .inr ⟨hwide.2, rfl, rfl⟩
  · exact .inl ⟨rfl, rfl⟩

/-- The loop probes the registers of all slots that are left. -/
theorem readBarsFrom_space (address : Address) {count rounds slot : ℕ} (bars : List (Option Bar))
    (c : ConfigSpace) (hrounds : count - slot ≤ rounds) (hslot : slot ≤ count) :
    (readBarsFrom address count rounds slot bars c).2 = c.probeAll address
      (barOffsets slot count) := by
  induction rounds generalizing slot bars c with
  | zero =>
    have heq : slot = count := by omega
    rw [readBarsFrom, heq, barOffsets, Nat.sub_self]
    rfl
  | succ rounds ih =>
    rw [readBarsFrom]
    split
    · rename_i hlt
      dsimp only
      rcases sizeBar_space c address (bar0 + slot * 4) (slot + 1 == count) with
        ⟨hused, hspace⟩ | ⟨hlast, hused, hspace⟩
      · rw [hused, hspace, ih _ _ (by omega) (by omega), barOffsets_cons hlt]
        rfl
      · have hne : slot + 1 ≠ count := by simpa using hlast
        have hupper : bar0 + slot * 4 + 4 = bar0 + (slot + 1) * 4 := by omega
        have hnext : barOffsets (slot + 1) count =
            (bar0 + (slot + 1) * 4) :: barOffsets (slot + 2) count :=
          barOffsets_cons (by omega)
        rw [hused, hspace, ih _ _ (by omega) (by omega), barOffsets_cons hlt, hnext, hupper]
        rfl
    · have heq : slot = count := by omega
      rw [heq, barOffsets, Nat.sub_self]
      rfl

/-! ## One function -/

/-- The header type of a function, without the multi-function bit. -/
def ConfigSpace.headerAt (c : ConfigSpace) (address : Address) : BitVec 8 :=
  c.read8 address headerType &&& 0x7f

/-- The offsets of a function's BARs. -/
def ConfigSpace.barsAt (c : ConfigSpace) (address : Address) : List ℕ :=
  barOffsets 0 (barCount (c.headerAt address))

/-- There is a function at the address. -/
def ConfigSpace.Present (c : ConfigSpace) (address : Address) : Prop :=
  c.read16 address vendorId ≠ noDevice

instance (c : ConfigSpace) (address : Address) : Decidable (c.Present address) := by
  unfold ConfigSpace.Present
  infer_instance

theorem command_notMem_barsAt (c : ConfigSpace) (address : Address) :
    command ∉ c.barsAt address := by
  intro hmem
  obtain ⟨i, -, -, heq⟩ := mem_barOffsets.mp hmem
  simp only [command, bar0] at heq
  omega

namespace ConfigSpace

/-- The registers while the function is read: its command register first, then with decoding off its
BARs. -/
structure Reading (c : ConfigSpace) (address : Address) (r : Registers) : Prop where
  outside : ∀ a o, ¬ (a = address ∧ (o = command ∨ o ∈ c.barsAt address)) → r a o = c.registers a o
  bars : ∀ o ∈ c.barsAt address, r address o = c.registers address o ∨
    r address o = c.settledAt address o ∨
    r address o = c.probedAt address o ∧ r address command = c.quiescedAt address

/-- Reading a function that is there settles its command register and its BARs. -/
structure Visited (c c' : ConfigSpace) (address : Address) : Prop where
  kinds : c'.kinds = c.kinds
  registers : c'.registers = c.settle address (command :: c.barsAt address)
  history : ∃ states, c'.history = c.history ++ states ∧ (∀ r ∈ states, c.Reading address r) ∧
    ∀ o ∈ c.barsAt address, ∃ r ∈ states,
      r address o = c.probedAt address o ∧ r address command = c.quiescedAt address

/-- The write that switches decoding off. -/
theorem write16_off (c : ConfigSpace) (address : Address) :
    c.write16 address command (c.read16 address command &&& ~~~commandDecoding) =
      { c with
        registers := c.registers.set address command (c.quiescedAt address)
        history := c.history ++ [c.registers.set address command (c.quiescedAt address)] } := by
  have hdword : c.read16 address command = (c.registers address command).setWidth 16 := by
    rw [read16]
    rfl
  rw [hdword]
  rfl

/-- The write that restores the command, when the register still holds what the first write left. -/
theorem write16_restored {c c' : ConfigSpace} {address : Address} (hkinds : c'.kinds = c.kinds)
    (hcommand : c'.registers address command = c.quiescedAt address) :
    c'.write16 address command (c.read16 address command) =
      { c' with
        registers := c'.registers.set address command (c.settledAt address command)
        history := c'.history ++ [c'.registers.set address command
          (c.settledAt address command)] } := by
  have hdword : c.read16 address command = (c.registers address command).setWidth 16 := by
    rw [read16]
    rfl
  have hwritten : (c'.kinds address command).written (c'.registers address command)
      (Kind.commandRestored (c.registers address command) (c'.registers address command)) =
      c.settledAt address command := by
    rw [hkinds, hcommand]
    exact Kind.written_restored _ _
  rw [hdword, ← hwritten]
  rfl

/-- Reading the BARs of a function: off, probe, on. -/
theorem readBars_visited (c : ConfigSpace) (address : Address) :
    Visited c (readBars c address (barCount (c.headerAt address))).2 address := by
  -- the state with decoding off
  set off := c.write16 address command (c.read16 address command &&& ~~~commandDecoding) with hoff
  rw [write16_off] at hoff
  have hkindsOff : off.kinds = c.kinds := by rw [hoff]
  have hregistersOff : off.registers = c.registers.set address command
    (c.quiescedAt address) := by rw [hoff]
  have hbar : ∀ o ∈ c.barsAt address, off.registers address o = c.registers address o := by
    intro o ho
    rw [hregistersOff, Registers.set_ne _ _]
    rintro ⟨-, rfl⟩
    exact command_notMem_barsAt c address ho
  have hsettledOff : ∀ o ∈ c.barsAt address, off.settledAt address o = c.settledAt address o := by
    intro o ho
    rw [settledAt, settledAt, hkindsOff, hbar o ho]
  have hprobedOff : ∀ o ∈ c.barsAt address, off.probedAt address o = c.probedAt address o := by
    intro o ho
    rw [probedAt, probedAt, hkindsOff, hbar o ho]
  obtain ⟨hkinds, hregisters, states, hhistory, hstates, hseen⟩ :=
    probeAll_spec off address (c.barsAt address)
  -- the command register stays as it is while the BARs are probed
  have hcommandStates : ∀ r ∈ states, r address command = c.quiescedAt address := by
    intro r hr
    rw [(hstates r hr).outside address command fun h => command_notMem_barsAt c address h.2,
      hregistersOff,
      Registers.set_self]
  have hcommand : (off.probeAll address (c.barsAt address)).registers address command =
    c.quiescedAt address := by
    rw [hregisters, settle, if_neg fun h => command_notMem_barsAt c address h.2, hregistersOff,
      Registers.set_self]
  have hlast := write16_restored (hkinds.trans hkindsOff) hcommand
  have hspace : (readBars c address (barCount (c.headerAt address))).2 =
      (off.probeAll address (c.barsAt address)).write16 address command
        (c.read16 address command) := by
    have hloop : off.probeAll address (c.barsAt address) = _ :=
      (readBarsFrom_space address (List.replicate 6 none) off (Nat.sub_le _ 0) (Nat.zero_le _)).symm
    rw [hloop]
    rfl
  rw [hspace, hlast]
  refine ⟨hkinds.trans hkindsOff, ?_, ?_⟩
  · dsimp only
    rw [hregisters]
    funext a o
    by_cases hself : a = address ∧ o = command
    · obtain ⟨rfl, rfl⟩ := hself
      rw [Registers.set_self, settle, if_pos ⟨rfl, List.mem_cons_self⟩]
    rw [Registers.set_ne _ _ hself, settle, settle]
    by_cases hin : a = address ∧ o ∈ c.barsAt address
    · obtain ⟨rfl, hmem⟩ := hin
      rw [if_pos ⟨rfl, hmem⟩, if_pos ⟨rfl, List.mem_cons_of_mem _ hmem⟩, hsettledOff o hmem]
    · have hout : ¬ (a = address ∧ o ∈ command :: c.barsAt address) := by
        rintro ⟨ha, hmem⟩
        rcases List.mem_cons.mp hmem with ho | ho
        · exact hself ⟨ha, ho⟩
        · exact hin ⟨ha, ho⟩
      rw [if_neg hin, if_neg hout, hregistersOff, Registers.set_ne _ _ hself]
  · refine ⟨off.registers :: states ++ [(off.probeAll address (c.barsAt address)).registers.set
      address command
      (c.settledAt address command)], ?_, ?_, ?_⟩
    · dsimp only
      rw [hhistory, hoff]
      simp only [List.append_assoc, List.cons_append, List.nil_append]
    · intro r hr
      rcases List.mem_append.mp hr with hr | hr
      · rcases List.mem_cons.mp hr with rfl | hr
        · -- decoding has just been switched off
          refine ⟨?_, fun o ho => .inl (hbar o ho)⟩
          intro a o hout
          rw [hregistersOff, Registers.set_ne _ _ fun h => hout ⟨h.1, .inl h.2⟩]
        · -- a BAR is being probed
          have hstate := hstates r hr
          constructor
          · intro a o hout
            rw [hstate.outside a o fun h => hout ⟨h.1, .inr h.2⟩, hregistersOff,
              Registers.set_ne _ _ fun h => hout ⟨h.1, .inl h.2⟩]
          · intro o ho
            rcases hstate.inside o ho with hold | hset | hprobe
            · exact .inl (hold.trans (hbar o ho))
            · exact .inr (.inl (hset.trans (hsettledOff o ho)))
            · exact .inr (.inr ⟨hprobe.trans (hprobedOff o ho), hcommandStates r hr⟩)
      · -- the command is back
        obtain rfl := List.mem_singleton.mp hr
        rw [hregisters]
        constructor
        · intro a o hout
          rw [Registers.set_ne _ _ fun h => hout ⟨h.1, .inl h.2⟩, settle,
            if_neg fun h => hout ⟨h.1, .inr h.2⟩,
            hregistersOff, Registers.set_ne _ _ fun h => hout ⟨h.1, .inl h.2⟩]
        · intro o ho
          have hne : ¬ (address = address ∧ o = command) := by
            rintro ⟨-, rfl⟩
            exact command_notMem_barsAt c address ho
          rw [Registers.set_ne _ _ hne, settle, if_pos ⟨rfl, ho⟩]
          exact .inr (.inl (hsettledOff o ho))
    · intro o ho
      obtain ⟨r, hr, hvalue⟩ := hseen o ho
      exact ⟨r, List.mem_append_left _ (List.mem_cons_of_mem _ hr), hvalue.trans (hprobedOff o ho),
        hcommandStates r hr⟩

/-- Where there is no function, nothing happens. -/
theorem readDevice_absent (h : ¬ c.Present address) : readDevice c address = (none, c) := by
  rw [readDevice]
  exact if_pos (not_not.mp h)

/-- Reading a function that is there. -/
theorem readDevice_present (h : c.Present address) :
    ∃ d, (readDevice c address).1 = some d ∧ d.address = address ∧
      d.headerType = c.headerAt address ∧ d.classCode = c.read8 address classCode ∧
      d.subclass = c.read8 address subclass ∧
      d.multifunction = (c.read8 address headerType &&& 0x80 != 0) ∧
      Visited c (readDevice c address).2 address := by
  have heq : readDevice c address = _ := if_neg h
  rw [heq]
  exact ⟨_, rfl, rfl, rfl, rfl, rfl, rfl, readBars_visited c address⟩

end ConfigSpace

end SaeOS.Pci
