import SaeOS.Drivers.PciEnumerate

/-!
# What the scan leaves behind

The write that switches decoding off, and the one that restores the command, write STATUS back as it was read,
and a probe writes a BAR back. A bit that a one clears is not left as it was by that. And a decoding bit that
cannot be written stays on while a BAR is probed.
-/

namespace SaeOS.Pci

open ConfigSpace

variable {c : ConfigSpace} {address : Address}

/-! ## Registers that probing gives back -/

/-- Two words have no bit in common. -/
theorem and_eq_zero_iff (a b : BitVec 32) : a &&& b = 0 ↔ ∀ i < 32, (a.getLsbD i && b.getLsbD i) = false := by
  have hzero : ∀ i, (0 : BitVec 32).getLsbD i = false := fun i => BitVec.getLsbD_zero
  constructor
  · intro h i _
    rw [← BitVec.getLsbD_and, h, hzero]
  · intro h
    apply BitVec.eq_of_getLsbD_eq
    intro i hi
    rw [BitVec.getLsbD_and, h i hi, hzero]

namespace Kind

variable (kind : Kind) (old : BitVec 32)

theorem settled_eq_iff : kind.settled old = old ↔ old &&& kind.clearing = 0 := by
  rw [and_eq_zero_iff]
  constructor
  · intro heq i hi
    have hbit := congrArg (fun v => v.getLsbD i) heq
    rw [getLsbD_settled kind old hi] at hbit
    cases hc : kind.clearing.getLsbD i <;> cases ho : old.getLsbD i <;> simp_all
  · intro hzero
    apply BitVec.eq_of_getLsbD_eq
    intro i hi
    have hbit := hzero i hi
    rw [getLsbD_settled kind old hi]
    cases hc : kind.clearing.getLsbD i <;> cases ho : old.getLsbD i <;> simp_all

/-- A probe is seen unless every bit that can be written is set. -/
theorem probed_eq_iff (hclear : old &&& kind.clearing = 0) :
    kind.probed old = old ↔ kind.writable &&& ~~~old = 0 := by
  have hbits : ∀ i < 32, (kind.probed old).getLsbD i = (old.getLsbD i || kind.writable.getLsbD i) := by
    intro i hi
    have hbit := (and_eq_zero_iff _ _).mp hclear i hi
    rw [getLsbD_probed kind old hi]
    cases hc : kind.clearing.getLsbD i <;> cases ho : old.getLsbD i <;> simp_all
  have hnot : ∀ i < 32, (~~~old).getLsbD i = !old.getLsbD i := by
    intro i hi
    rw [BitVec.getLsbD_not, decide_eq_true hi, Bool.true_and]
  rw [and_eq_zero_iff]
  constructor
  · intro heq i hi
    have hbit := hbits i hi
    rw [heq] at hbit
    rw [hnot i hi]
    cases hw : kind.writable.getLsbD i <;> cases ho : old.getLsbD i <;> simp_all
  · intro hzero
    apply BitVec.eq_of_getLsbD_eq
    intro i hi
    have hbit := hzero i hi
    rw [hnot i hi] at hbit
    rw [hbits i hi]
    cases hw : kind.writable.getLsbD i <;> cases ho : old.getLsbD i <;> simp_all

end Kind

namespace ConfigSpace

/-- The functions that the scan reads are those it returns. -/
theorem mem_calls_present :
    address ∈ c.calls ∧ c.Present address ↔ c.Reachable address.bus ∧ c.Exists address := by
  have hcall : ∀ {bus device}, address ∈ c.callsOf bus device → c.Present address →
      address.bus = bus ∧ c.Exists address := by
    intro bus device hmem hpresent
    have hfound : address ∈ c.foundOf bus device :=
      List.mem_filter.mpr ⟨hmem, by simpa using hpresent⟩
    obtain ⟨hbus, -, hexists⟩ := mem_foundOf.mp hfound
    exact ⟨hbus, hexists⟩
  constructor
  · rintro ⟨hmem, hpresent⟩
    rcases List.mem_append.mp hmem with hroot | hlater
    · obtain ⟨hbus, hexists⟩ := hcall hroot hpresent
      rw [hbus]
      exact ⟨.root, hexists⟩
    · obtain ⟨bus, hbus, hmem⟩ := List.mem_flatMap.mp hlater
      obtain ⟨device, -, hmem⟩ := List.mem_flatMap.mp hmem
      obtain ⟨rfl, hexists⟩ := hcall hmem hpresent
      exact ⟨mem_busOrder.mp hbus, hexists⟩
  · rintro ⟨hreach, hexists⟩
    have hfound : address ∈ c.foundOf address.bus address.device := mem_foundOf.mpr ⟨rfl, rfl, hexists⟩
    refine ⟨List.mem_append_right _ ?_, hexists.present⟩
    refine List.mem_flatMap.mpr ⟨address.bus, mem_busOrder.mpr hreach, ?_⟩
    exact List.mem_flatMap.mpr ⟨address.device, List.mem_finRange _, (List.mem_filter.mp hfound).1⟩

/-- The scan settles the command and the BARs of every function it returns. -/
theorem registers_scan_found (hreach : c.Reachable address.bus) (hexists : c.Exists address) {offset : ℕ}
    (hoffset : offset = command ∨ offset ∈ c.barsAt address) :
    (scan c).2.registers address offset = c.settledAt address offset := by
  obtain ⟨hmem, hpresent⟩ := mem_calls_present.mpr ⟨hreach, hexists⟩
  rw [(scan_eq c).1, (Near.refl c).registers_visits, if_pos ⟨hmem, hpresent, hoffset⟩]

/-- Every other register keeps its value. -/
theorem registers_scan_other {offset : ℕ} (h : ¬ (c.Reachable address.bus ∧ c.Exists address ∧
    (offset = command ∨ offset ∈ c.barsAt address))) :
    (scan c).2.registers address offset = c.registers address offset := by
  rw [(scan_eq c).1, (Near.refl c).registers_visits, if_neg]
  rintro ⟨hmem, hpresent, hoffset⟩
  obtain ⟨hreach, hexists⟩ := mem_calls_present.mp ⟨hmem, hpresent⟩
  exact h ⟨hreach, hexists, hoffset⟩

/-! ## The states in between -/

/-- Reading the function leaves every register as it was. -/
def Neutral (c : ConfigSpace) (address : Address) : Prop :=
  ∀ offset, offset = command ∨ offset ∈ c.barsAt address →
    c.settledAt address offset = c.registers address offset

theorem eq_of_fields {c c' : ConfigSpace} (hkinds : c.kinds = c'.kinds) (hregisters : c.registers = c'.registers)
    (hhistory : c.history = c'.history) : c = c' := by
  obtain ⟨kinds, registers, history⟩ := c
  obtain ⟨kinds', registers', history'⟩ := c'
  simp only at hkinds hregisters hhistory
  rw [hkinds, hregisters, hhistory]

/-- The states while functions are read that are left as they were. -/
theorem visits_neutral (c : ConfigSpace) {addresses : List Address}
    (hneutral : ∀ a ∈ addresses, c.Present a → c.Neutral a) (history : List Registers) :
    ∃ states, ({ c with history } : ConfigSpace).visits addresses = { c with history := history ++ states } ∧
      (∀ r ∈ states, ∃ a ∈ addresses, c.Present a ∧ c.Reading a r) ∧
      ∀ a ∈ addresses, c.Present a → ∀ o ∈ c.barsAt a, ∃ r ∈ states,
        r a o = c.probedAt a o ∧ r a command = c.quiescedAt a := by
  induction addresses generalizing history with
  | nil => exact ⟨[], by rw [List.append_nil]; rfl, (by simp), (by simp)⟩
  | cons address addresses ih =>
    -- reading the first one
    have hfirst : ∃ states, (readDevice { c with history } address).2 = { c with history := history ++ states } ∧
        (∀ r ∈ states, c.Present address ∧ c.Reading address r) ∧
        (c.Present address → ∀ o ∈ c.barsAt address, ∃ r ∈ states,
          r address o = c.probedAt address o ∧ r address command = c.quiescedAt address) := by
      by_cases hpresent : c.Present address
      · have hpresent' : ConfigSpace.Present { c with history } address := hpresent
        obtain ⟨d, -, -, -, -, -, -, hvisited⟩ := readDevice_present hpresent'
        obtain ⟨states, hhistory, hreading, hseen⟩ := hvisited.history
        have hregisters : (readDevice { c with history } address).2.registers = c.registers := by
          rw [hvisited.registers]
          funext a o
          rw [settle]
          split
          · rename_i hin
            obtain ⟨rfl, ho⟩ := hin
            exact hneutral a List.mem_cons_self hpresent o (List.mem_cons.mp ho)
          · rfl
        have hspace : (readDevice { c with history } address).2 = { c with history := history ++ states } :=
          eq_of_fields hvisited.kinds hregisters hhistory
        exact ⟨states, hspace, fun r hr => ⟨hpresent, (hreading r hr).outside, (hreading r hr).bars⟩,
          fun _ => hseen⟩
      · have habsent : ¬ ConfigSpace.Present { c with history } address := hpresent
        refine ⟨[], ?_, (by simp), fun hp => absurd hp hpresent⟩
        rw [readDevice_absent habsent, List.append_nil]
    obtain ⟨states, hspace, hreading, hseen⟩ := hfirst
    obtain ⟨rest, hrest, hreadings, hseens⟩ :=
      ih (fun a ha => hneutral a (List.mem_cons_of_mem _ ha)) (history ++ states)
    have hcons : ({ c with history } : ConfigSpace).visits (address :: addresses) =
        (readDevice { c with history } address).2.visits addresses := rfl
    refine ⟨states ++ rest, ?_, ?_, ?_⟩
    · rw [hcons, hspace, hrest, List.append_assoc]
    · intro r hr
      rcases List.mem_append.mp hr with hr | hr
      · exact ⟨address, List.mem_cons_self, hreading r hr⟩
      · obtain ⟨a, ha, hpresent⟩ := hreadings r hr
        exact ⟨a, List.mem_cons_of_mem _ ha, hpresent⟩
    · intro a ha hpresent o ho
      rcases List.mem_cons.mp ha with rfl | ha
      · obtain ⟨r, hr, hvalue⟩ := hseen hpresent o ho
        exact ⟨r, List.mem_append_left _ hr, hvalue⟩
      · obtain ⟨r, hr, hvalue⟩ := hseens a ha hpresent o ho
        exact ⟨r, List.mem_append_right _ hr, hvalue⟩

/-! ## Traces -/

/-- The registers after each write of the scan. -/
def scanStates (c : ConfigSpace) : List Registers :=
  (scan c).2.history.drop c.history.length

/-- The I/O or the memory decoding of a function is on. -/
def Decoding (r : Registers) (address : Address) : Prop :=
  r address command &&& 0x3 ≠ 0

/-- After the scan every register holds what it held, and in between no BAR held anything else while the
decoding of its function was on. -/
def LeavesNoTrace (c : ConfigSpace) : Prop :=
  (scan c).2.registers = c.registers ∧
    ∀ r ∈ c.scanStates, ∀ address, Decoding r address → ∀ offset ∈ c.barsAt address,
      r address offset = c.registers address offset

/-- A function that has no bit set that writing it back clears, and no decoding that stays on over a BAR whose
bits a probe sets. -/
structure Harmless (c : ConfigSpace) (address : Address) : Prop where
  command : c.registers address command &&& (c.kinds address command).clearing = 0
  bars : ∀ offset ∈ c.barsAt address, c.registers address offset &&& (c.kinds address offset).clearing = 0
  decoding : c.registers address Pci.command &&& ~~~(c.kinds address Pci.command).writable &&& 0x3 = 0 ∨
    ∀ offset ∈ c.barsAt address, (c.kinds address offset).writable &&& ~~~c.registers address offset = 0

theorem neutral_iff : c.Neutral address ↔
    c.registers address command &&& (c.kinds address command).clearing = 0 ∧
      ∀ offset ∈ c.barsAt address, c.registers address offset &&& (c.kinds address offset).clearing = 0 := by
  constructor
  · intro h
    exact ⟨(Kind.settled_eq_iff _ _).mp (h command (.inl rfl)),
      fun offset ho => (Kind.settled_eq_iff _ _).mp (h offset (.inr ho))⟩
  · rintro ⟨hcommand, hbars⟩ offset (rfl | ho)
    · exact (Kind.settled_eq_iff _ _).mpr hcommand
    · exact (Kind.settled_eq_iff _ _).mpr (hbars offset ho)

/-- The registers are left as they were if reading each function leaves them so. -/
theorem registers_scan_eq_iff :
    (scan c).2.registers = c.registers ↔ ∀ a, c.Reachable a.bus → c.Exists a → c.Neutral a := by
  constructor
  · intro heq a hreach hexists offset ho
    rw [← registers_scan_found hreach hexists ho, heq]
  · intro h
    funext a o
    by_cases hin : c.Reachable a.bus ∧ c.Exists a ∧ (o = command ∨ o ∈ c.barsAt a)
    · obtain ⟨hreach, hexists, ho⟩ := hin
      rw [registers_scan_found hreach hexists ho]
      exact h a hreach hexists o ho
    · exact registers_scan_other hin

end ConfigSpace

/-- The scan leaves no trace exactly if every function it returns is harmless. -/
theorem scan_leavesNoTrace_iff (c : ConfigSpace) :
    c.LeavesNoTrace ↔ ∀ address, c.Reachable address.bus → c.Exists address → c.Harmless address := by
  -- the states of a scan that leaves the registers as they were
  have hstates (hregisters : (scan c).2.registers = c.registers) :
      (∀ r ∈ c.scanStates, ∃ a, c.Reachable a.bus ∧ c.Exists a ∧ c.Reading a r) ∧
        ∀ a, c.Reachable a.bus → c.Exists a → ∀ o ∈ c.barsAt a, ∃ r ∈ c.scanStates,
          r a o = c.probedAt a o ∧ r a command = c.quiescedAt a := by
    have hneutral : ∀ a ∈ c.calls, c.Present a → c.Neutral a := by
      intro a ha hpresent
      obtain ⟨hreach, hexists⟩ := mem_calls_present.mp ⟨ha, hpresent⟩
      exact registers_scan_eq_iff.mp hregisters a hreach hexists
    obtain ⟨states, hspace, hreading, hseen⟩ := visits_neutral c hneutral c.history
    have heq : c.scanStates = states := by
      rw [scanStates, (scan_eq c).1]
      exact (congrArg (fun c' : ConfigSpace => c'.history.drop c.history.length) hspace).trans List.drop_left
    rw [heq]
    constructor
    · intro r hr
      obtain ⟨a, ha, hpresent, hr⟩ := hreading r hr
      obtain ⟨hreach, hexists⟩ := mem_calls_present.mp ⟨ha, hpresent⟩
      exact ⟨a, hreach, hexists, hr⟩
    · intro a hreach hexists
      obtain ⟨ha, hpresent⟩ := mem_calls_present.mpr ⟨hreach, hexists⟩
      exact hseen a ha hpresent
  constructor
  · rintro ⟨hregisters, hquiet⟩ a hreach hexists
    obtain ⟨hcommand, hbars⟩ := neutral_iff.mp (registers_scan_eq_iff.mp hregisters a hreach hexists)
    refine ⟨hcommand, hbars, ?_⟩
    by_cases hoff : c.registers a command &&& ~~~(c.kinds a command).writable &&& 0x3 = 0
    · exact .inl hoff
    · right
      intro offset ho
      obtain ⟨r, hr, hvalue, hquiesced⟩ := (hstates hregisters).2 a hreach hexists offset ho
      -- a decoding bit that cannot be switched off is on while this BAR is probed
      have hdecoding : Decoding r a := by
        rw [Decoding, hquiesced]
        exact (Kind.quiesced_decoding _ _).trans_ne hoff
      have heq := hvalue.symm.trans (hquiet r hr a hdecoding offset ho)
      exact (Kind.probed_eq_iff _ _ (hbars offset ho)).mp heq
  · intro hharmless
    have hregisters : (scan c).2.registers = c.registers :=
      registers_scan_eq_iff.mpr fun a hreach hexists =>
        neutral_iff.mpr ⟨(hharmless a hreach hexists).command, (hharmless a hreach hexists).bars⟩
    refine ⟨hregisters, fun r hr a hdecoding offset ho => ?_⟩
    obtain ⟨b, hreach, hexists, hreading⟩ := (hstates hregisters).1 r hr
    by_cases hself : a = b
    · subst hself
      have h := hharmless a hreach hexists
      rcases hreading.bars offset ho with hold | hsettled | ⟨hprobed, hquiesced⟩
      · exact hold
      · exact hsettled.trans ((Kind.settled_eq_iff _ _).mpr (h.bars offset ho))
      · refine hprobed.trans ((Kind.probed_eq_iff _ _ (h.bars offset ho)).mpr ?_)
        refine h.decoding.resolve_left (fun hoff => hdecoding ?_) offset ho
        rw [hquiesced]
        exact (Kind.quiesced_decoding _ _).trans hoff
    · exact hreading.outside a offset fun hin => hself hin.1

/-! ## A function with an error bit set -/

/-- A host bridge whose STATUS says that a transaction was aborted. -/
def abortedBridge : ConfigSpace where
  kinds address offset :=
    if address = ⟨0, 0, 0⟩ ∧ offset = command then ⟨0x00000007, 0xf9000000, by decide⟩ else .plain 0
  registers address offset :=
    if address = ⟨0, 0, 0⟩ then
      match offset with
      | 0x00 => 0x12378086
      | 0x04 => 0x20000003
      | 0x08 => 0x06000000
      | _ => 0
    else 0xffffffff

/-- The scan clears the error bit. -/
theorem abortedBridge_traced : ¬ abortedBridge.LeavesNoTrace := by
  rintro ⟨hregisters, -⟩
  have hvalue := congrFun (congrFun hregisters ⟨0, 0, 0⟩) command
  rw [registers_scan_found .root ⟨by decide, .inl rfl, by decide⟩ (.inl rfl)] at hvalue
  exact absurd hvalue (by decide)

end SaeOS.Pci
