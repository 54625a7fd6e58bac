import SaeOS.Drivers.PciScan

/-!
# What the scan returns

On a configuration space whose registers are read-only or plain, every function on every bus that
can be reached is returned once, in order, with its identity, its base address registers and its
capabilities.
-/

namespace SaeOS.Pci

open ConfigSpace

variable {c c' c₀ : ConfigSpace} {address : Address} {bus : Fin 256} {device : Fin 32}

namespace ConfigSpace

/-! ## The functions that are found -/

theorem mem_laterFunctions {function : Fin 8} : function ∈ laterFunctions ↔ function ≠ 0 := by
  revert function
  decide

theorem mem_callsOf : address ∈ c.callsOf bus device ↔ address.bus = bus ∧ address.device = device ∧
    (address.function = 0 ∨ address.function ∈ c.laterOf bus device) := by
  rw [callsOf, List.mem_cons, List.mem_map]
  constructor
  · rintro (rfl | ⟨function, hmem, rfl⟩)
    · exact ⟨rfl, rfl, .inl rfl⟩
    · exact ⟨rfl, rfl, .inr hmem⟩
  · rintro ⟨rfl, rfl, hzero | hmem⟩
    · left
      rw [← hzero]
    · exact .inr ⟨address.function, hmem, rfl⟩

theorem mem_laterOf {function : Fin 8} : function ∈ c.laterOf bus device ↔
    function ≠ 0 ∧ c.Present ⟨bus, device, 0⟩ ∧ c.multiAt ⟨bus, device, 0⟩ = true := by
  unfold laterOf
  split
  · rename_i h
    rw [mem_laterFunctions, and_iff_left h]
  · rename_i h
    exact ⟨fun hmem => absurd hmem List.not_mem_nil, fun hin => absurd hin.2 h⟩

/-- The functions found on a device are those that exist. -/
theorem mem_foundOf : address ∈ c.foundOf bus device ↔
    address.bus = bus ∧ address.device = device ∧ c.Exists address := by
  rw [foundOf, List.mem_filter, decide_eq_true_iff, mem_callsOf]
  constructor
  · rintro ⟨⟨rfl, rfl, hfunction⟩, hpresent⟩
    refine ⟨rfl, rfl, ?_⟩
    rcases hfunction with hzero | hlater
    · have heq : address = ⟨address.bus, address.device, 0⟩ := by rw [← hzero]
      exact ⟨heq ▸ hpresent, .inl hzero, hpresent⟩
    · obtain ⟨-, hfirst, hmulti⟩ := mem_laterOf.mp hlater
      exact ⟨hfirst, .inr hmulti, hpresent⟩
  · rintro ⟨rfl, rfl, hexists⟩
    refine ⟨⟨rfl, rfl, ?_⟩, hexists.present⟩
    by_cases hzero : address.function = 0
    · exact .inl hzero
    · exact .inr (mem_laterOf.mpr ⟨hzero, hexists.first, hexists.admitted.resolve_left hzero⟩)

theorem callsOf_nodup (c : ConfigSpace) (bus : Fin 256) (device : Fin 32) :
    (c.callsOf bus device).Nodup := by
  rw [callsOf, List.nodup_cons]
  constructor
  · intro hmem
    obtain ⟨function, hlater, heq⟩ := List.mem_map.mp hmem
    exact (mem_laterOf.mp hlater).1 (congrArg Address.function heq)
  · have hlater : (c.laterOf bus device).Nodup := by
      unfold laterOf
      split
      · decide
      · exact List.nodup_nil
    exact hlater.map fun a b heq => congrArg Address.function heq

/-- The functions found on a bus. -/
def busFound (c : ConfigSpace) (bus : Fin 256) : List Address :=
  (List.finRange 32).flatMap (c.foundOf bus)

theorem mem_busFound : address ∈ c.busFound bus ↔ address.bus = bus ∧ c.Exists address := by
  rw [busFound, List.mem_flatMap]
  constructor
  · rintro ⟨device, -, hmem⟩
    obtain ⟨hbus, -, hexists⟩ := mem_foundOf.mp hmem
    exact ⟨hbus, hexists⟩
  · rintro ⟨hbus, hexists⟩
    exact ⟨address.device, List.mem_finRange _, mem_foundOf.mpr ⟨hbus, rfl, hexists⟩⟩

theorem busFound_nodup (c : ConfigSpace) (bus : Fin 256) : (c.busFound bus).Nodup := by
  rw [busFound, List.nodup_flatMap]
  refine ⟨fun device _ => (callsOf_nodup c bus device).filter _, ?_⟩
  refine (List.nodup_finRange 32).imp fun hne address hleft hright => ?_
  exact hne ((mem_foundOf.mp hleft).2.1.symm.trans (mem_foundOf.mp hright).2.1)

/-! ## The buses that are scanned -/

theorem behind_eq_some {next : Fin 256} (h : c.behind bus address = some next) :
    c.IsPciBridge address ∧ next = c.secondaryOf address := by
  unfold behind at h
  split at h
  · rename_i hbridge
    split at h
    · exact ⟨⟨hbridge.1, hbridge.2.1, hbridge.2.2⟩, (Option.some.inj h).symm⟩
    · contradiction
  · contradiction

/-- A bridge leads to its bus, unless to bus 0 or to its own. -/
theorem behind_bridge (h : c.IsPciBridge address) :
    c.behind bus address = some (c.secondaryOf address) ∨
    c.secondaryOf address = 0 ∨ c.secondaryOf address = bus := by
  unfold behind
  rw [if_pos ⟨h.header, h.classCode, h.subclass⟩]
  by_cases hother : c.secondaryOf address ≠ 0 ∧ c.secondaryOf address ≠ bus
  · exact .inl (if_pos hother)
  · rw [not_and_or, not_not, not_not] at hother
    exact .inr hother

theorem mem_nextBuses {next : Fin 256} :
    next ∈ c.nextBuses bus ↔ ∃ a ∈ c.busFound bus, c.behind bus a = some next := by
  rw [nextBuses, List.mem_reverse, List.mem_flatMap]
  constructor
  · rintro ⟨device, hdevice, hmem⟩
    obtain ⟨a, ha, hbehind⟩ := List.mem_filterMap.mp hmem
    exact ⟨a, List.mem_flatMap.mpr ⟨device, hdevice, ha⟩, hbehind⟩
  · rintro ⟨a, ha, hbehind⟩
    obtain ⟨device, hdevice, hmem⟩ := List.mem_flatMap.mp ha
    exact ⟨device, hdevice, List.mem_filterMap.mpr ⟨a, hmem, hbehind⟩⟩

theorem zero_mem_roots (c : ConfigSpace) : (0 : Fin 256) ∈ c.roots :=
  List.mem_append_right _ (List.mem_singleton.mpr rfl)

theorem reachable_of_mem_roots (h : bus ∈ c.roots) : c.Reachable bus := by
  rcases List.mem_append.mp h with hhost | hzero
  · rw [List.mem_reverse] at hhost
    obtain ⟨function, hmem, rfl⟩ := List.mem_map.mp hhost
    obtain ⟨hlater, hpresent⟩ := List.mem_filter.mp hmem
    obtain ⟨-, hfirst, hmulti⟩ := mem_laterOf.mp hlater
    exact .host ⟨hfirst, .inr hmulti, by simpa using hpresent⟩
  · rw [List.mem_singleton.mp hzero]
    exact .root

/-- The scan visits the buses that can be reached. -/
theorem mem_busOrder : bus ∈ c.busOrder ↔ c.Reachable bus := by
  rw [busOrder, Worklist.mem_order_iff]
  constructor
  · rintro ⟨root, hroot, hpath⟩
    induction hpath with
    | refl => exact reachable_of_mem_roots hroot
    | tail _ hlead ih =>
      obtain ⟨a, ha, hbehind⟩ := mem_nextBuses.mp hlead
      obtain ⟨rfl, hexists⟩ := mem_busFound.mp ha
      obtain ⟨hbridge, rfl⟩ := behind_eq_some hbehind
      exact .bridge ih hexists hbridge
  · intro hreach
    induction hreach with
    | root => exact ⟨0, zero_mem_roots c, .refl⟩
    | @host function hexists =>
      by_cases hzero : function = 0
      · rw [hzero]
        exact ⟨0, zero_mem_roots c, .refl⟩
      · refine ⟨_, List.mem_append_left _
          (List.mem_reverse.mpr (List.mem_map.mpr ⟨function, ?_, rfl⟩)), .refl⟩
        rw [List.mem_filter]
        exact ⟨mem_laterOf.mpr ⟨hzero, hexists.first, hexists.admitted.resolve_left hzero⟩,
          by simpa using hexists.present⟩
    | @bridge a _ hexists hbridge ih =>
      rcases behind_bridge hbridge with hbehind | hzero | hown
      · obtain ⟨root, hroot, hpath⟩ := ih
        exact ⟨root, hroot, hpath.tail
          (mem_nextBuses.mpr ⟨a, mem_busFound.mpr ⟨rfl, hexists⟩, hbehind⟩)⟩
      · rw [hzero]
        exact ⟨0, zero_mem_roots c, .refl⟩
      · rw [hown]
        exact ih

theorem mem_found : address ∈ c.found ↔ c.Reachable address.bus ∧ c.Exists address := by
  have hfound : address ∈ c.found ↔ ∃ bus ∈ c.busOrder, address ∈ c.busFound bus := List.mem_flatMap
  rw [hfound]
  constructor
  · rintro ⟨bus, hbus, hmem⟩
    obtain ⟨rfl, hexists⟩ := mem_busFound.mp hmem
    exact ⟨mem_busOrder.mp hbus, hexists⟩
  · rintro ⟨hreach, hexists⟩
    exact ⟨address.bus, mem_busOrder.mpr hreach, mem_busFound.mpr ⟨rfl, hexists⟩⟩

theorem found_nodup (c : ConfigSpace) : c.found.Nodup := by
  have hfound : c.found = c.busOrder.flatMap c.busFound := rfl
  rw [hfound, List.nodup_flatMap]
  refine ⟨fun bus _ => busFound_nodup c bus, ?_⟩
  refine (Worklist.order_nodup _ _ _).imp fun hne address hleft hright => ?_
  exact hne ((mem_busFound.mp hleft).1.symm.trans (mem_busFound.mp hright).1)

end ConfigSpace

/-! ## Base address registers -/

/-- Registers that are read-only or plain: a one clears no bit. -/
def ConfigSpace.Plain (c : ConfigSpace) : Prop :=
  ∀ address offset, (c.kinds address offset).clearing = 0

theorem ConfigSpace.Plain.kinds (hplain : c₀.Plain) (h : c.kinds = c₀.kinds) : c.Plain := by
  intro a o
  rw [h]
  exact hplain a o

theorem ConfigSpace.Plain.near (hplain : c₀.Plain) (h : Near c₀ c) :
    c.registers = c₀.registers := by
  funext a o
  rcases h.registers a o with heq | ⟨-, heq⟩
  · exact heq
  · rw [heq]
    exact Kind.settled_of_plain _ _ (hplain a o)

/-- The registers of a function hold these BARs from a slot on; the upper half of a wide one is no
BAR. -/
inductive BarSlots (c : ConfigSpace) (address : Address) (count : ℕ) : ℕ → List (Option Bar) → Prop
  | done : BarSlots c address count count []
  | empty {slot : ℕ} {rest : List (Option Bar)} (hslot : slot < count)
    (hvalue : c.registers address (bar0 + slot * 4) = 0)
    (hkind : (c.kinds address (bar0 + slot * 4)).writable = 0)
    (hrest : BarSlots c address count (slot + 1) rest) :
    BarSlots c address count slot (none :: rest)
  | io {slot : ℕ} {rest : List (Option Bar)} {port : BitVec 16} {bits : ℕ} (hslot : slot < count)
    (hbar : IoRegister (c.kinds address (bar0 + slot * 4))
      (c.registers address (bar0 + slot * 4)) port bits)
    (hrest : BarSlots c address count (slot + 1) rest) :
    BarSlots c address count slot (some (.io port (1#32 <<< bits)) :: rest)
  | memory {slot : ℕ} {rest : List (Option Bar)} {base : BitVec 32} {bits : ℕ} {prefetchable : Bool}
    (hslot : slot < count)
    (hbar : MemoryRegister (c.kinds address (bar0 + slot * 4))
      (c.registers address (bar0 + slot * 4)) base bits
      prefetchable)
    (hrest : BarSlots c address count (slot + 1) rest) :
    BarSlots c address count slot
      (some (.memory (base.setWidth 64) (1#64 <<< bits) prefetchable false) :: rest)
  | wide {slot : ℕ} {rest : List (Option Bar)} {base : BitVec 64} {bits : ℕ} {prefetchable : Bool}
    (hslot : slot + 1 < count)
    (hbar : WideRegister (c.kinds address (bar0 + slot * 4)) (c.kinds address (bar0 + (slot + 1) * 4))
      (c.registers address (bar0 + slot * 4)) (c.registers address (bar0 + (slot + 1) * 4)) base
        bits prefetchable)
    (hrest : BarSlots c address count (slot + 2) rest) :
    BarSlots c address count slot
      (some (.memory base (1#64 <<< bits) prefetchable true) :: none :: rest)

/-- What a probe of a register that is not the BAR of two slots gives. -/
theorem sizeBar_narrow {offset : ℕ} {lastSlot : Bool}
    (hnarrow : ((c.registers address offset >>> 1) &&& 0x3 == 0x2) = false) :
    (sizeBar c address offset lastSlot).1 =
      (if c.registers address offset &&& 1 == 1 then
        ioBar (c.registers address offset) (c.probedAt address offset)
      else memoryBar (c.registers address offset) (c.probedAt address offset), 1) := by
  simp only [sizeBar, probe_eq]
  split
  · rfl
  · rw [if_neg (by rw [hnarrow]; exact Bool.false_ne_true)]

theorem sizeBar_io {offset : ℕ} {lastSlot : Bool} {port : BitVec 16} {bits : ℕ} (hplain : c.Plain)
    (h : IoRegister (c.kinds address offset) (c.registers address offset) port bits) :
    (sizeBar c address offset lastSlot).1 = (some (.io port (1#32 <<< bits)), 1) := by
  obtain ⟨hone, hbar⟩ := ioBar_eq h (hplain address offset)
  simp only [sizeBar, probe_eq, hone]
  exact congrArg (·, 1) hbar

theorem sizeBar_memory {offset : ℕ} {lastSlot : Bool} {base : BitVec 32} {bits : ℕ}
    {prefetchable : Bool}
    (hplain : c.Plain)
    (h : MemoryRegister (c.kinds address offset) (c.registers address offset) base bits
      prefetchable) :
    (sizeBar c address offset lastSlot).1 =
      (some (.memory (base.setWidth 64) (1#64 <<< bits) prefetchable false), 1) := by
  obtain ⟨hone, hnarrow, hbar⟩ := memoryBar_eq h (hplain address offset)
  rw [sizeBar_narrow hnarrow, if_neg (by rw [hone]; exact Bool.false_ne_true)]
  exact congrArg (·, 1) hbar

theorem sizeBar_empty {offset : ℕ} {lastSlot : Bool} (hvalue : c.registers address offset = 0)
    (hkind : (c.kinds address offset).writable = 0) :
    (sizeBar c address offset lastSlot).1 = (none, 1) := by
  obtain ⟨hone, hnarrow, hbar⟩ := emptyBar_eq hkind
  have hnarrow' : ((c.registers address offset >>> 1) &&& 0x3 == 0x2) = false := by
    rw [hvalue]
    exact hnarrow
  rw [sizeBar_narrow hnarrow', if_neg (by rw [hvalue, hone]; exact Bool.false_ne_true), hvalue]
  refine congrArg (·, 1) ?_
  rw [← hbar, probedAt, hvalue]

theorem sizeBar_wide {offset : ℕ} {base : BitVec 64} {bits : ℕ} {prefetchable : Bool}
    (hplain : c.Plain)
    (h : WideRegister (c.kinds address offset) (c.kinds address (offset + 4))
      (c.registers address offset)
      (c.registers address (offset + 4)) base bits prefetchable) :
    (sizeBar c address offset false).1 =
      (some (.memory base (1#64 <<< bits) prefetchable true), 2) := by
  obtain ⟨hone, hwide, hbar⟩ := wideBar_eq h (hplain address offset) (hplain address (offset + 4))
  have hupper : (c.probed address offset).registers address (offset + 4) = c.registers address
    (offset + 4) := by
    rw [registers_probed, Registers.set_ne _ _ (by omega)]
  have hmaskUpper := probedAt_probed c address offset address (offset + 4)
  have heq : (sizeBar c address offset false).1 =
      (wideBar (c.registers address offset) (c.probedAt address offset)
        ((c.probed address offset).registers address (offset + 4))
        ((c.probed address offset).probedAt address (offset + 4)), 2) := by
    simp only [sizeBar, probe_eq, hone, hwide, probed]
    rfl
  rw [heq, hupper, hmaskUpper]
  exact congrArg (·, 2) hbar

/-- The registers of the BARs say which BARs they hold. -/
theorem BarSlots.congr {count slot : ℕ} {l : List (Option Bar)}
    (h : BarSlots c address count slot l)
    (hkinds : c'.kinds = c.kinds)
    (hregisters : ∀ i < count,
      c'.registers address (bar0 + i * 4) = c.registers address (bar0 + i * 4)) :
    BarSlots c' address count slot l := by
  induction h with
  | done => exact .done
  | empty hslot hvalue hkind _ ih =>
    exact .empty hslot ((hregisters _ hslot).trans hvalue) (hkinds ▸ hkind) ih
  | io hslot hbar _ ih =>
    refine .io hslot ?_ ih
    rw [hkinds, hregisters _ hslot]
    exact hbar
  | memory hslot hbar _ ih =>
    refine .memory hslot ?_ ih
    rw [hkinds, hregisters _ hslot]
    exact hbar
  | wide hslot hbar _ ih =>
    refine .wide hslot ?_ ih
    rw [hkinds, hregisters _ (by omega), hregisters _ hslot]
    exact hbar

/-- Where no bit is cleared by a one, sizing a BAR changes no register. -/
theorem sizeBar_plain (hplain : c.Plain) (address : Address) (offset : ℕ) (lastSlot : Bool) :
    (sizeBar c address offset lastSlot).2.kinds = c.kinds ∧
      (sizeBar c address offset lastSlot).2.registers = c.registers := by
  have hprobe : ∀ offsets, (c.probeAll address offsets).kinds = c.kinds ∧
      (c.probeAll address offsets).registers = c.registers := by
    intro offsets
    obtain ⟨hkinds, hregisters, -⟩ := probeAll_spec c address offsets
    refine ⟨hkinds, hregisters.trans ?_⟩
    funext a o
    rw [settle]
    split
    · exact Kind.settled_of_plain _ _ (hplain a o)
    · rfl
  rcases sizeBar_space c address offset lastSlot with ⟨-, hspace⟩ | ⟨-, -, hspace⟩
  · rw [hspace]
    exact hprobe _
  · rw [hspace]
    exact hprobe _

/-- The array of BARs after one is written. -/
theorem set_slot {before : List (Option Bar)} {slot : ℕ} (hbefore : before.length = slot)
    (hslot : slot < 6)
    (bar : Option Bar) : (before ++ List.replicate (6 - slot) none).set slot bar =
      (before ++ [bar]) ++ List.replicate (6 - (slot + 1)) none := by
  obtain ⟨left, hleft⟩ : ∃ left, 6 - slot = left + 1 := ⟨6 - slot - 1, by omega⟩
  have hnext : 6 - (slot + 1) = left := by omega
  rw [hleft, hnext, List.set_append_right _ _ (by omega), hbefore, Nat.sub_self,
    List.replicate_succ,
    List.set_cons_zero, List.append_assoc]
  rfl

/-- The loop writes the BARs from its slot on. -/
theorem readBarsFrom_bars {count rounds slot : ℕ} {l : List (Option Bar)}
    (before : List (Option Bar))
    (h : BarSlots c address count slot l) (hplain : c.Plain) (hcount : count ≤ 6)
    (hrounds : count - slot ≤ rounds)
    (hbefore : before.length = slot) :
    (readBarsFrom address count rounds slot (before ++ List.replicate (6 - slot) none) c).1 =
      before ++ l ++ List.replicate (6 - count) none := by
  induction rounds generalizing c slot l before with
  | zero =>
    cases h with
    | done => rw [readBarsFrom, List.append_nil]
    | empty hslot => omega
    | io hslot => omega
    | memory hslot => omega
    | wide hslot => omega
  | succ rounds ih =>
    -- a BAR of one slot, and the rest
    have hnarrow : ∀ {bar : Option Bar} {rest : List (Option Bar)} (hslot : slot < count),
        (sizeBar c address (bar0 + slot * 4) (slot + 1 == count)).1 = (bar, 1) →
        BarSlots c address count (slot + 1) rest →
        (readBarsFrom address count (rounds + 1) slot
          (before ++ List.replicate (6 - slot) none) c).1 =
          before ++ bar :: rest ++ List.replicate (6 - count) none := by
      intro bar rest hslot hsize hrest
      obtain ⟨hkinds, hregisters⟩ :=
        sizeBar_plain hplain address (bar0 + slot * 4) (slot + 1 == count)
      rw [readBarsFrom, if_pos hslot]
      dsimp only
      rw [congrArg Prod.fst hsize, congrArg Prod.snd hsize, set_slot hbefore (by omega),
        ih _ (hrest.congr hkinds fun i _ => by rw [hregisters]) (hplain.kinds hkinds) (by omega)
          (by rw [List.length_append, hbefore]; rfl), List.append_assoc before]
      rfl
    cases h with
    | done => rw [readBarsFrom, if_neg (Nat.lt_irrefl _), List.append_nil]
    | empty hslot hvalue hkind hrest => exact hnarrow hslot (sizeBar_empty hvalue hkind) hrest
    | io hslot hbar hrest => exact hnarrow hslot (sizeBar_io hplain hbar) hrest
    | memory hslot hbar hrest => exact hnarrow hslot (sizeBar_memory hplain hbar) hrest
    | @wide _ rest base bits prefetchable hslot hbar hrest =>
      have hlast : (slot + 1 == count) = false := by
        rw [beq_eq_false_iff_ne]
        omega
      obtain ⟨hkinds, hregisters⟩ := sizeBar_plain hplain address (bar0 + slot * 4) false
      have hsize : (sizeBar c address (bar0 + slot * 4) false).1 =
          (some (.memory base (1#64 <<< bits) prefetchable true), 2) := by
        apply sizeBar_wide hplain
        have hupper : bar0 + slot * 4 + 4 = bar0 + (slot + 1) * 4 := by omega
        rw [hupper]
        exact hbar
      -- the slot of the upper half stays empty
      have hskip : List.replicate (6 - (slot + 1)) (none : Option Bar) =
          [none] ++ List.replicate (6 - (slot + 2)) none := by
        have hleft : 6 - (slot + 1) = 6 - (slot + 2) + 1 := by omega
        rw [hleft, List.replicate_succ]
        rfl
      rw [readBarsFrom, if_pos (by omega), hlast]
      dsimp only
      rw [congrArg Prod.fst hsize, congrArg Prod.snd hsize, set_slot hbefore (by omega), hskip,
        ← List.append_assoc,
        ih _ (hrest.congr hkinds fun i _ => by rw [hregisters]) (hplain.kinds hkinds) (by omega)
          (by rw [List.length_append, List.length_append, hbefore]; rfl)]
      simp only [List.append_assoc, List.cons_append, List.nil_append]

/-- The BARs of a function, in as many slots as its header has; the others are empty. -/
theorem readBars_bars {count : ℕ} {l : List (Option Bar)} (h : BarSlots c address count 0 l)
    (hplain : c.Plain)
    (hcount : count ≤ 6) : (readBars c address count).1 = l ++ List.replicate (6 - count) none := by
  have hoff := write16_off c address
  have hkinds : (c.write16 address command
    (c.read16 address command &&& ~~~commandDecoding)).kinds = c.kinds := by
    rw [hoff]
  have hregisters : ∀ i < count,
      (c.write16 address command (c.read16 address command &&& ~~~commandDecoding)).registers
        address
        (bar0 + i * 4) = c.registers address (bar0 + i * 4) := by
    intro i _
    rw [hoff]
    refine Registers.set_ne _ _ fun hin => ?_
    have heq := hin.2
    simp only [bar0, command] at heq
    omega
  exact readBarsFrom_bars [] (h.congr hkinds hregisters) (hplain.kinds hkinds) hcount
    (Nat.sub_le _ 0)
    rfl

/-! ## Capabilities -/

/-- Where the list of a function's capabilities begins. -/
def ConfigSpace.capabilitiesAt (c : ConfigSpace) (address : Address) : BitVec 8 :=
  c.read8 address capabilitiesPointer &&& ~~~0x3

/-- Where the list goes on after an entry. -/
def ConfigSpace.nextCapability (c : ConfigSpace) (address : Address) (offset : BitVec 8) :
    BitVec 8 :=
  c.read8 address (offset.toNat + 1) &&& ~~~0x3

/-- The list from an offset on ends, with these entries: ids and offsets. -/
inductive CapabilityList (c : ConfigSpace) (address : Address) :
    BitVec 8 → List (BitVec 8 × BitVec 8) → Prop
  | stop {offset : BitVec 8} (hlow : offset < 0x40) : CapabilityList c address offset []
  | entry {offset : BitVec 8} {rest : List (BitVec 8 × BitVec 8)} (hlow : ¬ offset < 0x40)
    (hrest : CapabilityList c address (c.nextCapability address offset) rest) :
    CapabilityList c address offset ((c.read8 address offset.toNat, offset) :: rest)

namespace CapabilityList

variable {offset : BitVec 8} {l l' : List (BitVec 8 × BitVec 8)}

theorem unique (h : CapabilityList c address offset l) (h' : CapabilityList c address offset l') :
    l = l' := by
  induction h generalizing l' with
  | stop hlow =>
    cases h' with
    | stop => rfl
    | entry hhigh => exact absurd hlow hhigh
  | entry hhigh _ ih =>
    cases h' with
    | stop hlow => exact absurd hlow hhigh
    | entry _ hrest => rw [ih hrest]

/-- From each of its entries on, the list is the end of the whole list. -/
theorem suffix (h : CapabilityList c address offset l) {entry : BitVec 8 × BitVec 8}
    (hmem : entry ∈ l) :
    ∃ s, CapabilityList c address entry.2 s ∧ s.length ≤ l.length := by
  induction h with
  | stop => contradiction
  | @entry offset rest hhigh hrest ih =>
    rcases List.mem_cons.mp hmem with rfl | hlater
    · exact ⟨_, .entry hhigh hrest, Nat.le_refl _⟩
    · obtain ⟨s, hs, hle⟩ := ih hlater
      exact ⟨s, hs, Nat.le_succ_of_le hle⟩

/-- A list that ends has no offset twice. -/
theorem nodup (h : CapabilityList c address offset l) : (l.map Prod.snd).Nodup := by
  induction h with
  | stop => exact List.nodup_nil
  | @entry offset rest hhigh hrest ih =>
    rw [List.map_cons, List.nodup_cons]
    refine ⟨fun hmem => ?_, ih⟩
    obtain ⟨entry, hentry, heq⟩ := List.mem_map.mp hmem
    obtain rfl : entry.2 = offset := heq
    -- from there on the list would be longer than itself
    obtain ⟨s, hs, hle⟩ := hrest.suffix hentry
    rw [hs.unique (.entry hhigh hrest)] at hle
    exact absurd hle (Nat.not_succ_le_self _)

end CapabilityList

/-- The offsets that an entry can have: the dwords of the 192 bytes after the header. -/
def capabilityOffsets : List (BitVec 8) :=
  (List.range 48).map fun i => BitVec.ofNat 8 (0x40 + 4 * i)

theorem mem_capabilityOffsets (x : BitVec 8) (hhigh : ¬ (x &&& ~~~0x3) < 0x40) :
    (x &&& ~~~0x3) ∈ capabilityOffsets := by
  have hall : ∀ n : Fin 256, ¬ (BitVec.ofFin n &&& ~~~0x3 : BitVec 8) < 0x40 →
      (BitVec.ofFin n &&& ~~~0x3 : BitVec 8) ∈ capabilityOffsets := by decide +kernel
  exact hall x.toFin hhigh

theorem CapabilityList.subset {x : BitVec 8} {l : List (BitVec 8 × BitVec 8)}
    (h : CapabilityList c address (x &&& ~~~0x3) l) : l.map Prod.snd ⊆ capabilityOffsets := by
  generalize hoffset : x &&& ~~~0x3 = offset at h
  induction h generalizing x with
  | stop => exact List.nil_subset _
  | entry hhigh _ ih =>
    rw [List.map_cons, List.cons_subset]
    refine ⟨?_, ih rfl⟩
    rw [← hoffset] at hhigh ⊢
    exact mem_capabilityOffsets x hhigh

/-- A list that ends has at most 48 entries. -/
theorem CapabilityList.length_le {x : BitVec 8} {l : List (BitVec 8 × BitVec 8)}
    (h : CapabilityList c address (x &&& ~~~0x3) l) : l.length ≤ 48 := by
  have hlength := (List.subperm_of_subset h.nodup h.subset).length_le
  rw [List.length_map] at hlength
  exact hlength.trans (by decide)

theorem capabilitiesFrom_eq {rounds : ℕ} {offset : BitVec 8} {l : List (BitVec 8 × BitVec 8)}
    (h : CapabilityList c address offset l) (hrounds : l.length ≤ rounds) :
    capabilitiesFrom c address rounds offset = l := by
  induction h generalizing rounds with
  | stop hlow =>
    cases rounds with
    | zero => rfl
    | succ rounds => rw [capabilitiesFrom, if_pos hlow]
  | entry hhigh _ ih =>
    obtain ⟨rounds, rfl⟩ : ∃ n, rounds = n + 1 :=
      Nat.exists_eq_add_one.mpr (Nat.zero_lt_of_lt hrounds)
    rw [capabilitiesFrom, if_neg hhigh]
    exact congrArg _ (ih (Nat.le_of_succ_le_succ hrounds))

/-- A list that ends is read completely. -/
theorem readCapabilities_eq {l : List (BitVec 8 × BitVec 8)}
    (hstatus : c.read16 address status &&& statusCapabilities ≠ 0)
    (h : CapabilityList c address (c.capabilitiesAt address) l) :
    readCapabilities c address = l := by
  rw [readCapabilities, if_neg hstatus]
  exact capabilitiesFrom_eq h h.length_le

/-- What is read of the capabilities depends on the registers. -/
theorem readCapabilities_congr (h : c'.registers = c.registers) (address : Address) :
    readCapabilities c' address = readCapabilities c address := by
  have hbyte : ∀ offset, c'.read8 address offset = c.read8 address offset := by
    intro offset
    rw [read8, read8, read32, read32, h]
  have hlist : ∀ rounds offset,
      capabilitiesFrom c' address rounds offset = capabilitiesFrom c address rounds offset := by
    intro rounds
    induction rounds with
    | zero => exact fun _ => rfl
    | succ rounds ih =>
      intro offset
      rw [capabilitiesFrom, capabilitiesFrom, hbyte, hbyte, ih]
  have hstatus : c'.read16 address status = c.read16 address status := by
    rw [read16, read16, read32, read32, h]
  rw [readCapabilities, readCapabilities, hstatus, hbyte, hlist]

/-! ## The order of the result -/

namespace Address

theorem le_trans (a b c : Address) (hab : a.le b) (hbc : b.le c) : a.le c := by
  obtain ⟨a₁, a₂, a₃⟩ := a
  obtain ⟨b₁, b₂, b₃⟩ := b
  obtain ⟨c₁, c₂, c₃⟩ := c
  simp only [le, Before, decide_eq_true_eq, mk.injEq] at hab hbc ⊢
  omega

theorem le_total (a b : Address) : (a.le b || b.le a) = true := by
  obtain ⟨a₁, a₂, a₃⟩ := a
  obtain ⟨b₁, b₂, b₃⟩ := b
  simp only [le, Before, Bool.or_eq_true, decide_eq_true_eq, mk.injEq]
  omega

theorem before_of_le {a b : Address} (hle : a.le b) (hne : a ≠ b) : a.Before b := by
  rw [le, decide_eq_true_eq] at hle
  exact hle.resolve_left hne

end Address

/-- The returned functions are those that can be reached, once each, in order. -/
theorem scan_addresses (c : ConfigSpace) :
    (scan c).1.Pairwise (fun a b => a.address.Before b.address) ∧
      (∀ address, (∃ d ∈ (scan c).1, d.address = address) ↔ c.Reachable address.bus ∧
        c.Exists address) ∧
      ∀ d ∈ (scan c).1, c.ReadOf d := by
  obtain ⟨-, devices, hscan, haddresses, hreads⟩ := scan_eq c
  rw [hscan]
  have hperm := List.mergeSort_perm devices fun a b => Address.le a.address b.address
  refine ⟨?_, fun address => ?_, fun d hd => hreads d (hperm.mem_iff.mp hd)⟩
  · have hsorted : (devices.mergeSort fun a b => Address.le a.address b.address).Pairwise
        fun a b => Address.le a.address b.address :=
      List.pairwise_mergeSort (fun a b c => Address.le_trans a.address b.address c.address)
        (fun a b => Address.le_total a.address b.address) devices
    have hnodup : (devices.mergeSort fun a b => Address.le a.address b.address).Pairwise
        fun a b => a.address ≠ b.address := by
      have hmap : ((devices.mergeSort fun a b => Address.le a.address b.address).map
          PciDevice.address).Nodup := by
        rw [(hperm.map PciDevice.address).nodup_iff, haddresses]
        exact found_nodup c
      exact List.pairwise_map.mp hmap
    exact hsorted.imp₂ (fun a b hle hne => Address.before_of_le hle hne) hnodup
  · rw [← mem_found, ← haddresses, List.mem_map]
    constructor
    · rintro ⟨d, hd, rfl⟩
      exact ⟨d, hperm.mem_iff.mp hd, rfl⟩
    · rintro ⟨d, hd, rfl⟩
      exact ⟨d, hperm.mem_iff.mpr hd, rfl⟩

/-- What a returned function says is what its registers hold. -/
structure Describes (c : ConfigSpace) (d : PciDevice) : Prop where
  vendor : d.vendor = c.read16 d.address vendorId
  deviceId : d.deviceId = c.read16 d.address deviceId
  classCode : d.classCode = c.read8 d.address classCode
  subclass : d.subclass = c.read8 d.address subclass
  progIf : d.progIf = c.read8 d.address progIf
  revision : d.revision = c.read8 d.address revision
  headerType : d.headerType = c.headerAt d.address
  multifunction : d.multifunction = c.multiAt d.address
  bars : ∀ l, BarSlots c d.address (barCount (c.headerAt d.address)) 0 l →
    d.bars = l ++ List.replicate (6 - barCount (c.headerAt d.address)) none
  interruptLine : d.interruptLine = c.read8 d.address interruptLine
  interruptPin : d.interruptPin = c.read8 d.address interruptPin
  noCapabilities : c.read16 d.address status &&& statusCapabilities = 0 → d.capabilities = []
  capabilities : c.read16 d.address status &&& statusCapabilities ≠ 0 →
    ∀ l, CapabilityList c d.address (c.capabilitiesAt d.address) l → d.capabilities = l

theorem barCount_le (header : BitVec 8) : barCount header ≤ 6 := by
  unfold barCount
  split
  · exact Nat.le_refl 6
  · split
    · decide
    · decide

/-- On plain registers, a function is described by what is read of it. -/
theorem ConfigSpace.ReadOf.describes {d : PciDevice} (h : c.ReadOf d) (hplain : c.Plain) :
    Describes c d := by
  obtain ⟨c₁, hnear, hread⟩ := h
  have hregisters := hplain.near hnear
  have hlater : (readDevice c₁ d.address).2.registers = c.registers :=
    hplain.near (hnear.readDevice d.address)
  have hpresent : c₁.Present d.address := by
    by_contra habsent
    rw [readDevice_absent habsent] at hread
    contradiction
  have heq : readDevice c₁ d.address = _ := if_neg hpresent
  rw [heq] at hread hlater
  have hword : ∀ offset, c₁.read16 d.address offset = c.read16 d.address offset := by
    intro offset
    rw [read16, read16, read32, read32, hregisters]
  have hbyte : ∀ offset, c₁.read8 d.address offset = c.read8 d.address offset := by
    intro offset
    rw [read8, read8, read32, read32, hregisters]
  have hheader : c₁.headerAt d.address = c.headerAt d.address := hnear.headerAt d.address
  -- what is read after the BARs
  have hbyteLater : ∀ offset, (readBars c₁ d.address (barCount (c₁.headerAt d.address))).2.read8
    d.address offset =
      c.read8 d.address offset := by
    intro offset
    rw [read8, read8, read32, read32]
    exact congrArg (fun r : Registers =>
      (r d.address (offset / 4 * 4) >>> (offset % 4 * 8)).setWidth 8) hlater
  have hcapabilities :
      readCapabilities (readBars c₁ d.address (barCount (c₁.headerAt d.address))).2 d.address =
        readCapabilities c d.address :=
    readCapabilities_congr hlater d.address
  have hfields := Option.some.inj hread
  refine ⟨?_, ?_, ?_, ?_, ?_, ?_, ?_, ?_, fun l hl => ?_, ?_, ?_, fun hstatus => ?_,
    fun hstatus l hl => ?_⟩
  · exact (congrArg PciDevice.vendor hfields).symm.trans (hword _)
  · exact (congrArg PciDevice.deviceId hfields).symm.trans (hword _)
  · exact (congrArg PciDevice.classCode hfields).symm.trans (hbyte _)
  · exact (congrArg PciDevice.subclass hfields).symm.trans (hbyte _)
  · exact (congrArg PciDevice.progIf hfields).symm.trans (hbyte _)
  · exact (congrArg PciDevice.revision hfields).symm.trans (hbyte _)
  · exact (congrArg PciDevice.headerType hfields).symm.trans hheader
  · refine (congrArg PciDevice.multifunction hfields).symm.trans ?_
    exact congrArg (fun header : BitVec 8 => header &&& 0x80 != 0) (hbyte _)
  · refine (congrArg PciDevice.bars hfields).symm.trans ?_
    rw [← hheader] at hl ⊢
    exact readBars_bars (hl.congr hnear.kinds fun _ _ => by rw [hregisters])
      (hplain.kinds hnear.kinds)
      (barCount_le _)
  · exact (congrArg PciDevice.interruptLine hfields).symm.trans (hbyteLater _)
  · exact (congrArg PciDevice.interruptPin hfields).symm.trans (hbyteLater _)
  · refine ((congrArg PciDevice.capabilities hfields).symm.trans hcapabilities).trans ?_
    exact if_pos hstatus
  · refine ((congrArg PciDevice.capabilities hfields).symm.trans hcapabilities).trans ?_
    exact readCapabilities_eq hstatus hl

/-- The scan of a configuration space of read-only and plain registers. -/
theorem scan_complete (c : ConfigSpace) (hplain : c.Plain) :
    (scan c).1.Pairwise (fun a b => a.address.Before b.address) ∧
      (∀ address, (∃ d ∈ (scan c).1, d.address = address) ↔ c.Reachable address.bus ∧
        c.Exists address) ∧
      ∀ d ∈ (scan c).1, Describes c d := by
  obtain ⟨hordered, hmem, hreads⟩ := scan_addresses c
  exact ⟨hordered, hmem, fun d hd => (hreads d hd).describes hplain⟩

/-! ## A network card -/

/-- A register whose writable bits are plain and whose other bits are read-only. -/
def Kind.plain (writable : BitVec 32) : Kind :=
  ⟨writable, 0, BitVec.and_zero⟩

/-- One function with an I/O BAR, a wide prefetchable one, a narrow one, and two capabilities. -/
def networkCard : ConfigSpace where
  kinds address offset :=
    if address = ⟨0, 0, 0⟩ then
      match offset with
      | 0x04 => .plain 0x7
      | 0x10 => .plain 0xffe0
      | 0x14 => .plain 0xffffc000
      | 0x18 => .plain 0xffffffff
      | 0x20 => .plain 0xfffff000
      | 0x3c => .plain 0xff
      | _ => .plain 0
    else .plain 0
  registers address offset :=
    if address = ⟨0, 0, 0⟩ then
      match offset with
      | 0x00 => 0x10001af4
      | 0x04 => 0x00100003
      | 0x08 => 0x02000000
      | 0x10 => 0x0000c001
      | 0x14 => 0xfe00000c
      | 0x18 => 0x00000001
      | 0x20 => 0xfebd0000
      | 0x34 => 0x00000040
      | 0x3c => 0x0000010b
      | 0x40 => 0x00005005
      | 0x50 => 0x00000011
      | _ => 0
    else 0xffffffff

theorem scan_complete_networkCard : ∃ d ∈ (scan networkCard).1, d.address = ⟨0, 0, 0⟩ ∧
    d.bars = [some (.io 0xc000 0x20), some (.memory 0x1fe000000 0x4000 true true), none, none,
      some (.memory 0xfebd0000 0x1000 false false), none] ∧
    d.capabilities = [(0x05, 0x40), (0x11, 0x50)] := by
  have hplain : networkCard.Plain := by
    intro address offset
    simp only [networkCard]
    split
    · split <;> rfl
    · rfl
  obtain ⟨-, hmem, hdescribes⟩ := scan_complete networkCard hplain
  obtain ⟨d, hd, haddress⟩ := (hmem ⟨0, 0, 0⟩).mpr ⟨.root, by decide, .inl rfl, by decide⟩
  have hd' := hdescribes d hd
  refine ⟨d, hd, haddress, ?_, ?_⟩
  · have hbars := hd'.bars
    rw [haddress] at hbars
    refine (hbars [some (.io 0xc000 (1#32 <<< 5)),
      some (.memory 0x1fe000000 (1#64 <<< 14) true true), none, none,
      some (.memory (BitVec.setWidth 64 0xfebd0000#32) (1#64 <<< 12) false false), none]
        ?_).trans (by decide)
    refine .io (by decide) ⟨by decide, by decide, by decide, by decide, by unfold Aligned; decide⟩
      ?_
    refine .wide (by decide) ⟨by decide, by decide, by decide, by decide, by decide, by decide, ?_⟩
      ?_
    · unfold Aligned
      decide
    refine .empty (by decide) (by decide) (by decide) ?_
    refine .memory (by decide) ⟨by decide, by decide, by decide, ⟨false, by decide⟩, ?_⟩ ?_
    · unfold Aligned
      decide
    exact .empty (by decide) (by decide) (by decide) .done
  · have hlist := hd'.capabilities
    rw [haddress] at hlist
    exact hlist (by decide) _ (.entry (by decide) (.entry (by decide) (.stop (by decide))))

end SaeOS.Pci
