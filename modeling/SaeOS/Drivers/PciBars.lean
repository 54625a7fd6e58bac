import SaeOS.Drivers.Pci

/-!
# What probing finds

Writing all ones and then the old value back gives a register its old bits, but for those that a one
clears. A base address register of one of the three formats, whose address bits from its size on can
be written, is read with its exact base and size.
-/

namespace SaeOS.Pci

/-! ## Writes -/

namespace Kind

variable (kind : Kind) (old : BitVec 32)

theorem not_both (i : ℕ) : (kind.writable.getLsbD i && kind.clearing.getLsbD i) = false := by
  rw [← BitVec.getLsbD_and, kind.disjoint]
  exact BitVec.getLsbD_zero

theorem getLsbD_written (value : BitVec 32) {i : ℕ} (hi : i < 32) :
    (kind.written old value).getLsbD i =
      (old.getLsbD i && !kind.writable.getLsbD i && !(kind.clearing.getLsbD i && value.getLsbD i) ||
        value.getLsbD i && kind.writable.getLsbD i) := by
  simp only [written, BitVec.getLsbD_or, BitVec.getLsbD_and, BitVec.getLsbD_not, hi, decide_true,
    Bool.true_and]

/-- The register without the bits that a one clears. -/
def settled : BitVec 32 :=
  old &&& ~~~kind.clearing

theorem getLsbD_settled {i : ℕ} (hi : i < 32) :
    (kind.settled old).getLsbD i = (old.getLsbD i && !kind.clearing.getLsbD i) := by
  simp only [settled, BitVec.getLsbD_and, BitVec.getLsbD_not, hi, decide_true, Bool.true_and]

/-- What is read back after writing all ones. -/
def probed : BitVec 32 :=
  kind.written old (BitVec.allOnes 32)

theorem getLsbD_probed {i : ℕ} (hi : i < 32) :
    (kind.probed old).getLsbD i =
      (old.getLsbD i && !kind.clearing.getLsbD i || kind.writable.getLsbD i) := by
  have hboth := kind.not_both i
  rw [probed, getLsbD_written kind old _ hi, BitVec.getLsbD_allOnes, decide_eq_true hi]
  cases hw : kind.writable.getLsbD i <;> cases hc : kind.clearing.getLsbD i <;>
    cases ho : old.getLsbD i <;> simp_all

/-- Probing leaves a register settled. -/
theorem written_probed : kind.written (kind.probed old) old = kind.settled old := by
  apply BitVec.eq_of_getLsbD_eq
  intro i hi
  have hboth := kind.not_both i
  rw [getLsbD_written kind _ old hi, getLsbD_probed kind old hi, getLsbD_settled kind old hi]
  cases hw : kind.writable.getLsbD i <;> cases hc : kind.clearing.getLsbD i <;>
    cases ho : old.getLsbD i <;> simp_all

/-! ## The command register -/

/-- The dword written to switch decoding off. -/
def decodingOff (old : BitVec 32) : BitVec 32 :=
  (old &&& ~~~(0xffff#32 <<< 0)) ||| ((old.setWidth 16 &&& ~~~commandDecoding).setWidth 32 <<< 0)

/-- The dword written to restore the command `old`, when the register holds `between`. -/
def commandRestored (old between : BitVec 32) : BitVec 32 :=
  (between &&& ~~~(0xffff#32 <<< 0)) ||| ((old.setWidth 16).setWidth 32 <<< 0)

theorem getLsbD_lowHalf {i : ℕ} (hi : i < 32) : (0xffff#32).getLsbD i = decide (i < 16) := by
  have h : ∀ j : Fin 32, (0xffff#32).getLsbD j = decide ((j : ℕ) < 16) := by decide
  exact h ⟨i, hi⟩

theorem getLsbD_commandDecoding {i : ℕ} : commandDecoding.getLsbD i = decide (i < 2) := by
  rcases Nat.lt_or_ge i 16 with hlt | hge
  · have h : ∀ j : Fin 16, commandDecoding.getLsbD j = decide ((j : ℕ) < 2) := by decide
    exact h ⟨i, hlt⟩
  · rw [BitVec.getLsbD_of_ge _ _ hge, eq_comm, decide_eq_false_iff_not]
    omega

theorem getLsbD_decodingOff {i : ℕ} (hi : i < 32) :
    (decodingOff old).getLsbD i = (old.getLsbD i && !decide (i < 2)) := by
  simp only [decodingOff, BitVec.shiftLeft_zero, BitVec.getLsbD_or, BitVec.getLsbD_and,
    BitVec.getLsbD_not, hi,
    decide_true, Bool.true_and, getLsbD_lowHalf hi, BitVec.getLsbD_setWidth,
      getLsbD_commandDecoding]
  by_cases hlow : i < 16
  · simp [hlow]
  · have hhigh : ¬ i < 2 := by omega
    simp [hlow, hhigh]

theorem getLsbD_commandRestored (between : BitVec 32) {i : ℕ} (hi : i < 32) :
    (commandRestored old between).getLsbD i =
      if i < 16 then old.getLsbD i else between.getLsbD i := by
  simp only [commandRestored, BitVec.shiftLeft_zero, BitVec.getLsbD_or, BitVec.getLsbD_and,
    BitVec.getLsbD_not,
    hi, decide_true, Bool.true_and, getLsbD_lowHalf hi, BitVec.getLsbD_setWidth]
  by_cases hlow : i < 16
  · simp [hlow]
  · simp [hlow]

/-- The command register with decoding switched off. -/
def quiesced : BitVec 32 :=
  kind.written old (decodingOff old)

/-- Restoring the command leaves its register settled: the ones that STATUS is written back with
clear it. -/
theorem written_restored :
    kind.written (kind.quiesced old) (commandRestored old (kind.quiesced old)) =
    kind.settled old := by
  apply BitVec.eq_of_getLsbD_eq
  intro i hi
  have hboth := kind.not_both i
  have hquiesced := getLsbD_written kind old (decodingOff old) hi
  rw [getLsbD_decodingOff old hi] at hquiesced
  rw [getLsbD_written kind _ _ hi, getLsbD_settled kind old hi,
    getLsbD_commandRestored old _ hi, quiesced,
    hquiesced]
  by_cases hlow : i < 2
  · have hhalf : i < 16 := by omega
    simp only [hlow, hhalf, decide_true, ↓reduceIte]
    cases hw : kind.writable.getLsbD i <;> cases hc : kind.clearing.getLsbD i <;>
      cases ho : old.getLsbD i <;> simp_all
  · simp only [hlow, decide_false]
    cases hw : kind.writable.getLsbD i <;> cases hc : kind.clearing.getLsbD i <;>
      cases ho : old.getLsbD i <;> simp_all

/-- Decoding bits that can be written are off in the meantime, the others stay. -/
theorem quiesced_decoding : kind.quiesced old &&& 0x3 = old &&& ~~~kind.writable &&& 0x3 := by
  apply BitVec.eq_of_getLsbD_eq
  intro i hi
  have h3 : (0x3 : BitVec 32).getLsbD i = decide (i < 2) := by
    have h : ∀ j : Fin 32, (0x3 : BitVec 32).getLsbD j = decide ((j : ℕ) < 2) := by decide
    exact h ⟨i, hi⟩
  rw [BitVec.getLsbD_and, BitVec.getLsbD_and, BitVec.getLsbD_and, BitVec.getLsbD_not, h3, quiesced,
    getLsbD_written kind old _ hi, getLsbD_decodingOff old hi, decide_eq_true hi]
  by_cases hlow : i < 2
  · simp [hlow]
  · simp [hlow]

end Kind

/-! ## Base address registers -/

/-- The address bits of a BAR of `2 ^ bits` bytes. -/
def addressBits (w bits : ℕ) : BitVec w :=
  BitVec.allOnes w <<< bits

theorem getLsbD_addressBits {w bits i : ℕ} (hi : i < w) :
    (addressBits w bits).getLsbD i = decide (bits ≤ i) := by
  rw [addressBits, BitVec.getLsbD_shiftLeft, BitVec.getLsbD_allOnes, decide_eq_true hi]
  by_cases hle : bits ≤ i
  · rw [decide_eq_true hle, decide_eq_false (by omega), decide_eq_true (by omega)]
    rfl
  · rw [decide_eq_false hle, decide_eq_true (by omega)]
    rfl

/-- The bits that stick tell the size. -/
theorem not_addressBits_add_one (w bits : ℕ) : ~~~addressBits w bits + 1#w = 1#w <<< bits := by
  rw [← BitVec.neg_eq_not_add, addressBits, ← BitVec.neg_one_eq_allOnes,
    BitVec.shiftLeft_eq_mul_twoPow,
    BitVec.neg_mul, BitVec.neg_neg, BitVec.one_mul, BitVec.twoPow_eq]

/-- A base is a multiple of the size. -/
def Aligned {w : ℕ} (base : BitVec w) (bits : ℕ) : Prop :=
  ∀ i < bits, base.getLsbD i = false

/-- An I/O BAR of `2 ^ bits` bytes. What the upper half of the dword holds is up to the device. -/
structure IoRegister (kind : Kind) (value : BitVec 32) (port : BitVec 16) (bits : ℕ) : Prop where
  two_le : 2 ≤ bits
  lt : bits < 16
  writable : kind.writable.setWidth 16 = addressBits 16 bits
  value_eq : value.setWidth 16 = port ||| 1
  aligned : Aligned port bits

/-- The low four bits of a memory BAR: prefetchable, of two slots, to be placed below 1 MiB. -/
def memoryFlags (prefetchable wide below : Bool) : BitVec 32 :=
  (if prefetchable then 0x8 else 0) ||| (if wide then 0x4 else 0) ||| (if below then 0x2 else 0)

/-- A memory BAR of one slot and `2 ^ bits` bytes. -/
structure MemoryRegister (kind : Kind) (value base : BitVec 32) (bits : ℕ) (prefetchable : Bool) :
    Prop where
  four_le : 4 ≤ bits
  lt : bits < 32
  writable : kind.writable = addressBits 32 bits
  value_eq : ∃ below, value = base ||| memoryFlags prefetchable false below
  aligned : Aligned base bits

/-- A memory BAR of two slots and `2 ^ bits` bytes. -/
structure WideRegister (kind kindUpper : Kind) (value valueUpper : BitVec 32)
    (base : BitVec 64) (bits : ℕ)
    (prefetchable : Bool) : Prop where
  four_le : 4 ≤ bits
  lt : bits < 64
  writable : kind.writable = (addressBits 64 bits).setWidth 32
  writableUpper : kindUpper.writable = (addressBits 64 bits >>> 32).setWidth 32
  value_eq : value = base.setWidth 32 ||| memoryFlags prefetchable true false
  valueUpper_eq : valueUpper = (base >>> 32).setWidth 32
  aligned : Aligned base bits

variable {kind kindUpper : Kind} {value valueUpper : BitVec 32} {bits : ℕ} {prefetchable : Bool}

theorem getLsbD_one {w i : ℕ} (hw : 0 < w) : (1#w).getLsbD i = decide (i = 0) := by
  rw [BitVec.getLsbD_one]
  simp [hw]

theorem getLsbD_not_three {i : ℕ} (hi : i < 32) :
    (~~~(0x3 : BitVec 32)).getLsbD i = decide (2 ≤ i) := by
  have h : ∀ j : Fin 32, (~~~(0x3 : BitVec 32)).getLsbD j = decide (2 ≤ (j : ℕ)) := by decide
  exact h ⟨i, hi⟩

theorem getLsbD_not_fifteen {i : ℕ} (hi : i < 32) :
    (~~~(0xf : BitVec 32)).getLsbD i = decide (4 ≤ i) := by
  have h : ∀ j : Fin 32, (~~~(0xf : BitVec 32)).getLsbD j = decide (4 ≤ (j : ℕ)) := by decide
  exact h ⟨i, hi⟩

theorem and_lowHalf (x : BitVec 32) : x &&& 0xffff = (x.setWidth 16).setWidth 32 := by
  apply BitVec.eq_of_getLsbD_eq
  intro i hi
  rw [BitVec.getLsbD_and, BitVec.getLsbD_setWidth, BitVec.getLsbD_setWidth, decide_eq_true hi,
    Bool.true_and]
  exact (congrArg _ (Kind.getLsbD_lowHalf hi)).trans (Bool.and_comm _ _)

theorem one_shiftLeft_ne_zero {w bits : ℕ} (h : bits < w) : (1#w <<< bits) ≠ 0#w := by
  intro heq
  have hbit := congrArg (fun v => v.getLsbD bits) heq
  simp only [BitVec.getLsbD_shiftLeft, h, Nat.lt_irrefl, Nat.sub_self, BitVec.getLsbD_zero] at hbit
  rw [getLsbD_one (by omega)] at hbit
  simp at hbit

theorem addressBits_ne_zero {w bits : ℕ} (h : bits < w) : addressBits w bits ≠ 0#w := by
  intro heq
  have hbit := congrArg (fun v => v.getLsbD bits) heq
  simp only [getLsbD_addressBits h, BitVec.getLsbD_zero] at hbit
  simp at hbit

/-- An I/O BAR is read with its port and size. -/
theorem ioBar_eq {port : BitVec 16} (h : IoRegister kind value port bits)
    (hplain : kind.clearing = 0) :
    value &&& 1 = 1 ∧ ioBar value (kind.probed value) = some (.io port (1#32 <<< bits)) := by
  have htwo := h.two_le
  have hlt := h.lt
  -- the low half of what is written and read, bit by bit
  have hwritable : ∀ i < 16, kind.writable.getLsbD i = decide (bits ≤ i) := by
    intro i hi
    rw [← getLsbD_addressBits hi, ← h.writable, BitVec.getLsbD_setWidth, decide_eq_true hi,
      Bool.true_and]
  have hvalue : ∀ i < 16, value.getLsbD i = (port.getLsbD i || decide (i = 0)) := by
    intro i hi
    have hbit := congrArg (fun v => v.getLsbD i) h.value_eq
    rw [BitVec.getLsbD_setWidth, decide_eq_true hi, Bool.true_and, BitVec.getLsbD_or] at hbit
    rw [hbit]
    congr 1
    exact getLsbD_one (by decide)
  have hport : ∀ i < bits, port.getLsbD i = false := h.aligned
  have hclear : ∀ i, kind.clearing.getLsbD i = false := by
    intro i
    rw [hplain]
    exact BitVec.getLsbD_zero
  set mask := kind.probed value &&& ~~~(0x3 : BitVec 32) with hmask
  have hlow : mask.setWidth 16 = addressBits 16 bits := by
    apply BitVec.eq_of_getLsbD_eq
    intro i hi
    rw [BitVec.getLsbD_setWidth, decide_eq_true hi, Bool.true_and, hmask, BitVec.getLsbD_and,
      kind.getLsbD_probed value (by omega), getLsbD_not_three (by omega), hwritable i hi,
        hvalue i hi, hclear i,
      getLsbD_addressBits hi]
    by_cases hle : bits ≤ i
    · have h2 : 2 ≤ i := by omega
      simp [hle, h2]
    · have hzero := hport i (by omega)
      by_cases h2 : 2 ≤ i
      · have hne : i ≠ 0 := by omega
        simp [hle, h2, hzero, hne]
      · simp [hle, h2]
  have hsize : (~~~mask + 1) &&& 0xffff = 1#32 <<< bits := by
    rw [and_lowHalf, BitVec.setWidth_add _ _ (by decide), BitVec.setWidth_not (by decide), hlow]
    have hone : BitVec.setWidth 16 (1 : BitVec 32) = 1#16 := by decide
    rw [hone, not_addressBits_add_one]
    apply BitVec.eq_of_getLsbD_eq
    intro i hi
    rw [BitVec.getLsbD_setWidth, BitVec.getLsbD_shiftLeft, BitVec.getLsbD_shiftLeft,
      getLsbD_one (by decide),
      getLsbD_one (by decide)]
    by_cases hi16 : i < 16
    · simp [hi, hi16]
    · have hne : i - bits ≠ 0 := by omega
      simp [hi16, hne]
  have hbase : (value &&& ~~~(0x3 : BitVec 32)).setWidth 16 = port := by
    apply BitVec.eq_of_getLsbD_eq
    intro i hi
    rw [BitVec.getLsbD_setWidth, decide_eq_true hi, Bool.true_and, BitVec.getLsbD_and,
      getLsbD_not_three (by omega), hvalue i hi]
    by_cases h2 : 2 ≤ i
    · have hne : i ≠ 0 := by omega
      simp [h2, hne]
    · rw [hport i (by omega)]
      simp [h2]
  constructor
  · apply BitVec.eq_of_getLsbD_eq
    intro i hi
    have hone : (1 : BitVec 32).getLsbD i = decide (i = 0) := getLsbD_one (by decide)
    rw [BitVec.getLsbD_and, hone]
    by_cases hzero : i = 0
    · rw [hzero, hvalue 0 (by decide)]
      simp
    · simp [hzero]
  · have hmaskNe : mask ≠ 0 := by
      intro hzero
      rw [hzero] at hlow
      exact addressBits_ne_zero hlt hlow.symm
    have hnone : ¬ (mask = 0 ∨ (~~~mask + 1) &&& 0xffff = 0) := by
      rw [hsize, not_or]
      exact ⟨hmaskNe, one_shiftLeft_ne_zero (by omega)⟩
    simp only [ioBar, ← hmask]
    rw [if_neg hnone, hsize, hbase]

/-! ### Memory -/

theorem getLsbD_fifteen {i : ℕ} (hi : i < 32) : (0xf : BitVec 32).getLsbD i = decide (i < 4) := by
  have h : ∀ j : Fin 32, (0xf : BitVec 32).getLsbD j = decide ((j : ℕ) < 4) := by decide
  exact h ⟨i, hi⟩

theorem memoryFlags_high {wide below : Bool} {i : ℕ} (hi : i < 32) (hge : 4 ≤ i) :
    (memoryFlags prefetchable wide below).getLsbD i = false := by
  have h : ∀ p w b : Bool, ∀ j : Fin 32, 4 ≤ (j : ℕ) →
    (memoryFlags p w b).getLsbD j = false := by decide
  exact h prefetchable wide below ⟨i, hi⟩ hge

section Flags

variable {base : BitVec 32}

theorem flags_of_memory (prefetchable wide below : Bool) (h : ∀ i < 4, base.getLsbD i = false) :
    (base ||| memoryFlags prefetchable wide below) &&& 0xf = memoryFlags prefetchable
      wide below := by
  apply BitVec.eq_of_getLsbD_eq
  intro i hi
  rw [BitVec.getLsbD_and, BitVec.getLsbD_or, getLsbD_fifteen hi]
  by_cases hlow : i < 4
  · simp [h i hlow, hlow]
  · simp [hlow, memoryFlags_high hi (by omega)]

theorem base_of_memory (prefetchable wide below : Bool) (h : ∀ i < 4, base.getLsbD i = false) :
    (base ||| memoryFlags prefetchable wide below) &&& ~~~(0xf : BitVec 32) = base := by
  apply BitVec.eq_of_getLsbD_eq
  intro i hi
  rw [BitVec.getLsbD_and, BitVec.getLsbD_or, getLsbD_not_fifteen hi]
  by_cases hlow : i < 4
  · have hge : ¬ 4 ≤ i := by omega
    simp [h i hlow, hge]
  · have hge : 4 ≤ i := by omega
    simp [hge, memoryFlags_high hi hge]

/-- The flags tell the format. -/
theorem format_of_memory (prefetchable wide below : Bool) (h : ∀ i < 4, base.getLsbD i = false) :
    let value := base ||| memoryFlags prefetchable wide below
    (value &&& 1 == 1) = false ∧ ((value >>> 1) &&& 0x3 == 0x2) = (wide && !below) ∧
      (value &&& 0x8 != 0) = prefetchable := by
  intro value
  have hflags : value &&& 0xf = memoryFlags prefetchable wide below :=
    flags_of_memory prefetchable wide below h
  -- each test reads the low four bits only
  have hone : value &&& 1 = (value &&& 0xf) &&& 1 := by
    rw [BitVec.and_assoc]
    congr 1
  have htwo : (value >>> 1) &&& (0x3 : BitVec 32) = ((value &&& 0xf) >>> 1) &&&
    (0x3 : BitVec 32) := by
    rw [BitVec.ushiftRight_and_distrib, BitVec.and_assoc]
    congr 1
  have height : value &&& 0x8 = (value &&& 0xf) &&& 0x8 := by
    rw [BitVec.and_assoc]
    congr 1
  rw [hone, htwo, height, hflags]
  have hall : ∀ p w b : Bool, (memoryFlags p w b &&& 1 == 1) = false ∧
      ((memoryFlags p w b >>> 1) &&& 0x3 == 0x2) = (w && !b) ∧
        (memoryFlags p w b &&& 0x8 != 0) = p := by
    decide
  exact hall prefetchable wide below

end Flags

/-- What can be written of an aligned base, and what cannot, after probing. -/
theorem probed_memory {base flags writable : BitVec 32} (hplain : kind.clearing = 0)
    (hwritable : kind.writable = writable)
    (hbase : ∀ i < 32, writable.getLsbD i = false → base.getLsbD i = false)
    (hflags : ∀ i < 32, 4 ≤ i → flags.getLsbD i = false)
    (hlow : ∀ i < 4, writable.getLsbD i = false) :
    kind.probed (base ||| flags) &&& ~~~(0xf : BitVec 32) = writable := by
  apply BitVec.eq_of_getLsbD_eq
  intro i hi
  have hclear : kind.clearing.getLsbD i = false := by
    rw [hplain]
    exact BitVec.getLsbD_zero
  rw [BitVec.getLsbD_and, kind.getLsbD_probed _ hi, getLsbD_not_fifteen hi, BitVec.getLsbD_or,
    hclear, hwritable]
  by_cases hge : 4 ≤ i
  · rw [hflags i hi hge]
    cases hw : writable.getLsbD i with
    | true => simp [hge]
    | false => simp [hbase i hi hw]
  · rw [hlow i (by omega)]
    simp [hge]

/-- A memory BAR of one slot is read with its base and size. -/
theorem memoryBar_eq {base : BitVec 32} (h : MemoryRegister kind value base bits prefetchable)
    (hplain : kind.clearing = 0) :
    (value &&& 1 == 1) = false ∧ ((value >>> 1) &&& 0x3 == 0x2) = false ∧
      memoryBar value (kind.probed value) =
        some (.memory (base.setWidth 64) (1#64 <<< bits) prefetchable false) := by
  have hfour := h.four_le
  have hlt := h.lt
  obtain ⟨below, rfl⟩ := h.value_eq
  have hlow : ∀ i < 4, base.getLsbD i = false := fun i hi => h.aligned i (by omega)
  obtain ⟨hone, htwo, height⟩ := format_of_memory prefetchable false below hlow
  have hmask : kind.probed (base ||| memoryFlags prefetchable false below) &&&
    ~~~(0xf : BitVec 32) =
      addressBits 32 bits := by
    refine probed_memory hplain h.writable ?_ (fun i hi hge => memoryFlags_high hi hge) ?_
    · intro i hi hbit
      rw [getLsbD_addressBits hi, decide_eq_false_iff_not] at hbit
      exact h.aligned i (by omega)
    · intro i hi
      rw [getLsbD_addressBits (by omega), decide_eq_false_iff_not]
      omega
  have hsize : (~~~addressBits 32 bits + 1).setWidth 64 = 1#64 <<< bits := by
    have hnot : ~~~addressBits 32 bits + 1 = 1#32 <<< bits := not_addressBits_add_one 32 bits
    rw [hnot]
    apply BitVec.eq_of_getLsbD_eq
    intro i hi
    rw [BitVec.getLsbD_setWidth, BitVec.getLsbD_shiftLeft, BitVec.getLsbD_shiftLeft,
      getLsbD_one (by decide),
      getLsbD_one (by decide)]
    by_cases hi32 : i < 32
    · simp [hi, hi32]
    · have hne : i - bits ≠ 0 := by omega
      simp [hi32, hne]
  refine ⟨hone, by rw [htwo]; rfl, ?_⟩
  simp only [memoryBar]
  have hne : ¬ addressBits 32 bits = 0 := addressBits_ne_zero hlt
  rw [hmask, if_neg hne, hsize, height, base_of_memory _ _ _ hlow]

/-- A memory BAR of two slots is read with its base and size. -/
theorem wideBar_eq {base : BitVec 64}
    (h : WideRegister kind kindUpper value valueUpper base bits prefetchable)
    (hplain : kind.clearing = 0) (hplainUpper : kindUpper.clearing = 0) :
    (value &&& 1 == 1) = false ∧ ((value >>> 1) &&& 0x3 == 0x2) = true ∧
      wideBar value (kind.probed value) valueUpper (kindUpper.probed valueUpper) =
        some (.memory base (1#64 <<< bits) prefetchable true) := by
  have hfour := h.four_le
  have hlt := h.lt
  obtain rfl := h.value_eq
  obtain rfl := h.valueUpper_eq
  have hbit : ∀ i < 32, (base.setWidth 32).getLsbD i = base.getLsbD i := by
    intro i hi
    rw [BitVec.getLsbD_setWidth, decide_eq_true hi, Bool.true_and]
  have hlow : ∀ i < 4, (base.setWidth 32).getLsbD i = false := by
    intro i hi
    rw [hbit i (by omega)]
    exact h.aligned i (by omega)
  obtain ⟨hone, htwo, height⟩ := format_of_memory prefetchable true false hlow
  have hmask : kind.probed (base.setWidth 32 ||| memoryFlags prefetchable true false) &&&
    ~~~(0xf : BitVec 32) =
      (addressBits 64 bits).setWidth 32 := by
    refine probed_memory hplain h.writable ?_ (fun i hi hge => memoryFlags_high hi hge) ?_
    · intro i hi hclear
      rw [BitVec.getLsbD_setWidth, decide_eq_true hi, Bool.true_and, getLsbD_addressBits (by omega),
        decide_eq_false_iff_not] at hclear
      rw [hbit i hi]
      exact h.aligned i (by omega)
    · intro i hi
      have hge : ¬ bits ≤ i := by omega
      rw [BitVec.getLsbD_setWidth, getLsbD_addressBits (by omega)]
      simp [hge]
  -- the upper half has no flags
  have hmaskUpper : kindUpper.probed ((base >>> 32).setWidth 32) =
    (addressBits 64 bits >>> 32).setWidth 32 := by
    apply BitVec.eq_of_getLsbD_eq
    intro i hi
    have hclear : kindUpper.clearing.getLsbD i = false := by
      rw [hplainUpper]
      exact BitVec.getLsbD_zero
    rw [kindUpper.getLsbD_probed _ hi, h.writableUpper, hclear]
    simp only [BitVec.getLsbD_setWidth, BitVec.getLsbD_ushiftRight, hi, decide_true, Bool.true_and,
      Bool.not_false, Bool.and_true]
    rw [getLsbD_addressBits (by omega)]
    by_cases hle : bits ≤ 32 + i
    · simp [hle]
    · rw [h.aligned (32 + i) (by omega)]
      simp
  have hjoin : ∀ x : BitVec 64,
    (((x >>> 32).setWidth 32).setWidth 64 <<< 32) ||| (x.setWidth 32).setWidth 64 = x := by
    intro x
    apply BitVec.eq_of_getLsbD_eq
    intro i hi
    simp only [BitVec.getLsbD_or, BitVec.getLsbD_shiftLeft, BitVec.getLsbD_setWidth,
      BitVec.getLsbD_ushiftRight, hi,
      decide_true, Bool.true_and]
    by_cases hlt : i < 32
    · simp [hlt]
    · have hsub : 32 + (i - 32) = i := by omega
      have hin : i - 32 < 32 := by omega
      have hin' : i - 32 < 64 := by omega
      simp [hlt, hsub, hin, hin']
  refine ⟨hone, by rw [htwo]; rfl, ?_⟩
  have hsize : ~~~addressBits 64 bits + 1 = 1#64 <<< bits := not_addressBits_add_one 64 bits
  simp only [wideBar]
  have hne : ¬ addressBits 64 bits = 0 := addressBits_ne_zero hlt
  rw [hmask, hmaskUpper, hjoin, if_neg hne, hsize, height, base_of_memory _ _ _ hlow, hjoin]

/-- A register that is not implemented is read as no BAR. -/
theorem emptyBar_eq (hwritable : kind.writable = 0) :
    ((0 : BitVec 32) &&& 1 == 1) = false ∧ (((0 : BitVec 32) >>> 1) &&& 0x3 == 0x2) = false ∧
      memoryBar 0 (kind.probed 0) = none := by
  have hprobed : kind.probed 0 = 0 := by
    apply BitVec.eq_of_getLsbD_eq
    intro i hi
    rw [kind.getLsbD_probed _ hi, hwritable]
    simp
  refine ⟨rfl, rfl, ?_⟩
  rw [hprobed]
  rfl

end SaeOS.Pci
