import Mathlib.Data.List.Nodup
import SaeOS.Drivers.PciProbe

/-!
# The walk over the hierarchy

Probing changes no register that says which functions there are and where bridges lead. So the walk
is the walk over the hierarchy as it was at the start: it reads the functions of every bus that can
be reached, bus by bus, and its state is what these reads leave, one after the other.
-/

namespace SaeOS.Pci

variable {c₀ c : ConfigSpace} {address : Address} {bus : Fin 256} {device : Fin 32}

/-! ## Configuration spaces in the course of a scan -/

namespace ConfigSpace

/-- A register that reading a function may settle. -/
def Touched (c : ConfigSpace) (address : Address) (offset : ℕ) : Prop :=
  c.Present address ∧ (offset = command ∨ offset ∈ c.barsAt address)

instance (c : ConfigSpace) (address : Address) (offset : ℕ) :
    Decidable (c.Touched address offset) := by
  unfold Touched
  infer_instance

/-- Some functions have been read since `c₀`. -/
structure Near (c₀ c : ConfigSpace) : Prop where
  kinds : c.kinds = c₀.kinds
  registers : ∀ a o, c.registers a o = c₀.registers a o ∨
    c₀.Touched a o ∧ c.registers a o = c₀.settledAt a o

theorem Near.refl (c : ConfigSpace) : Near c c :=
  ⟨rfl, fun _ _ => .inl rfl⟩

namespace Near

variable (h : Near c₀ c)
include h

theorem untouched {a : Address} {o : ℕ} (hout : ¬ c₀.Touched a o) :
    c.registers a o = c₀.registers a o :=
  (h.registers a o).resolve_right fun hin => hout hin.1

theorem settledAt (a : Address) (o : ℕ) : c.settledAt a o = c₀.settledAt a o := by
  rw [ConfigSpace.settledAt, ConfigSpace.settledAt, h.kinds]
  rcases h.registers a o with heq | ⟨-, heq⟩
  · rw [heq]
  · rw [heq]
    exact Kind.settled_settled _ _

/-- The dwords before the BARs, but for the command, are what they were. -/
theorem header {a : Address} {o : ℕ} (hne : o ≠ command) (hlt : o < bar0) :
    c.registers a o = c₀.registers a o := by
  apply h.untouched
  rintro ⟨-, heq | hmem⟩
  · exact hne heq
  · obtain ⟨i, -, -, rfl⟩ := mem_barOffsets.mp hmem
    omega

theorem present_iff (a : Address) : c.Present a ↔ c₀.Present a := by
  rw [Present, Present, read16, read16, read32, read32, h.header (by decide) (by decide)]

theorem headerByte (a : Address) : c.read8 a headerType = c₀.read8 a headerType := by
  rw [read8, read8, read32, read32, h.header (by decide) (by decide)]

theorem headerAt (a : Address) : c.headerAt a = c₀.headerAt a := by
  rw [ConfigSpace.headerAt, ConfigSpace.headerAt, h.headerByte]

theorem barsAt (a : Address) : c.barsAt a = c₀.barsAt a := by
  rw [ConfigSpace.barsAt, ConfigSpace.barsAt, h.headerAt]

theorem classByte (a : Address) : c.read8 a classCode = c₀.read8 a classCode := by
  rw [read8, read8, read32, read32, h.header (by decide) (by decide)]

theorem subclassByte (a : Address) : c.read8 a subclass = c₀.read8 a subclass := by
  rw [read8, read8, read32, read32, h.header (by decide) (by decide)]

/-- A bridge's bus register is behind its two BARs. -/
theorem secondaryByte {a : Address} (hbridge : c₀.headerAt a = headerBridge) :
    c.read8 a secondaryBus = c₀.read8 a secondaryBus := by
  rw [read8, read8, read32, read32, h.untouched]
  rintro ⟨-, heq | hmem⟩
  · exact absurd heq (by decide)
  · rw [ConfigSpace.barsAt, hbridge] at hmem
    exact absurd hmem (by decide)

end Near

/-- Reading several functions, one after the other. -/
def visits (c : ConfigSpace) (addresses : List Address) : ConfigSpace :=
  addresses.foldl (fun c address => (readDevice c address).2) c

theorem visits_append (c : ConfigSpace) (l m : List Address) :
    c.visits (l ++ m) = (c.visits l).visits m :=
  List.foldl_append

/-- Reading a function settles what it touches. -/
theorem Near.registers_readDevice (h : Near c₀ c) (address : Address) :
    (readDevice c address).2.kinds = c₀.kinds ∧
      ∀ a o, (readDevice c address).2.registers a o =
        if a = address ∧ c₀.Touched a o then c₀.settledAt a o else c.registers a o := by
  by_cases hpresent : c₀.Present address
  · obtain ⟨d, -, -, -, -, -, -, hvisited⟩ :=
      readDevice_present ((h.present_iff address).mpr hpresent)
    refine ⟨hvisited.kinds.trans h.kinds, fun a o => ?_⟩
    rw [hvisited.registers, settle, h.barsAt, h.settledAt]
    by_cases hin : a = address ∧ c₀.Touched a o
    · rw [if_pos ⟨hin.1, hin.1 ▸ List.mem_cons.mpr hin.2.2⟩, if_pos hin]
    · rw [if_neg hin, if_neg]
      rintro ⟨rfl, ho⟩
      exact hin ⟨rfl, hpresent, List.mem_cons.mp ho⟩
  · rw [readDevice_absent fun hp => hpresent ((h.present_iff address).mp hp)]
    refine ⟨h.kinds, fun a o => (if_neg ?_).symm⟩
    rintro ⟨rfl, hin⟩
    exact hpresent hin.1

theorem Near.readDevice (h : Near c₀ c) (address : Address) : Near c₀ (readDevice c address).2 := by
  obtain ⟨hkinds, hregisters⟩ := h.registers_readDevice address
  refine ⟨hkinds, fun a o => ?_⟩
  rw [hregisters a o]
  split
  · rename_i hin
    exact .inr ⟨hin.2, rfl⟩
  · exact h.registers a o

theorem Near.visits (h : Near c₀ c) (addresses : List Address) : Near c₀ (c.visits addresses) := by
  induction addresses generalizing c with
  | nil => exact h
  | cons address addresses ih => exact ih (h.readDevice address)

/-- What the functions read have touched is settled. -/
theorem Near.registers_visits (h : Near c₀ c) (addresses : List Address) (a : Address) (o : ℕ) :
    (c.visits addresses).registers a o =
      if a ∈ addresses ∧ c₀.Touched a o then c₀.settledAt a o else c.registers a o := by
  induction addresses generalizing c with
  | nil => exact (if_neg fun hin => List.not_mem_nil hin.1).symm
  | cons address addresses ih =>
    have hfirst := (h.registers_readDevice address).2 a o
    have heq : c.visits (address :: addresses) = (Pci.readDevice c address).2.visits addresses :=
      rfl
    rw [heq, ih (h.readDevice address), hfirst]
    by_cases htouched : c₀.Touched a o
    · by_cases hlater : a ∈ addresses
      · rw [if_pos ⟨hlater, htouched⟩, if_pos ⟨List.mem_cons_of_mem _ hlater, htouched⟩]
      · rw [if_neg fun hin => hlater hin.1]
        by_cases hself : a = address
        · rw [if_pos ⟨hself, htouched⟩, if_pos ⟨hself ▸ List.mem_cons_self, htouched⟩]
        · rw [if_neg fun hin => hself hin.1, if_neg]
          rintro ⟨hmem, -⟩
          rcases List.mem_cons.mp hmem with hs | hl
          · exact hself hs
          · exact hlater hl
    · rw [if_neg fun hin => htouched hin.2, if_neg fun hin => htouched hin.2,
        if_neg fun hin => htouched hin.2]

/-! ## The hierarchy -/

/-- A function has the multi-function bit. -/
def multiAt (c : ConfigSpace) (address : Address) : Bool :=
  c.read8 address headerType &&& 0x80 != 0

/-- There is a function at the address, which function 0 of the device admits. -/
structure Exists (c : ConfigSpace) (address : Address) : Prop where
  first : c.Present ⟨address.bus, address.device, 0⟩
  admitted : address.function = 0 ∨ c.multiAt ⟨address.bus, address.device, 0⟩ = true
  present : c.Present address

/-- A PCI-to-PCI bridge. -/
structure IsPciBridge (c : ConfigSpace) (address : Address) : Prop where
  header : c.headerAt address = headerBridge
  classCode : c.read8 address classCode = 0x06
  subclass : c.read8 address subclass = 0x04

/-- The bus behind a bridge. -/
def secondaryOf (c : ConfigSpace) (address : Address) : Fin 256 :=
  (c.read8 address secondaryBus).toFin

/-- The buses that can be reached: bus 0, the buses of further host controllers, and those behind
bridges. -/
inductive Reachable (c : ConfigSpace) : Fin 256 → Prop
  | root : Reachable c 0
  | host {function : Fin 8} : c.Exists ⟨0, 0, function⟩ →
    Reachable c (function.castLE functions_le_buses)
  | bridge {address : Address} : Reachable c address.bus → c.Exists address →
    c.IsPciBridge address →
    Reachable c (c.secondaryOf address)

/-! ## The walk over the hierarchy as it was -/

/-- The later functions of a device that are read. -/
def laterOf (c : ConfigSpace) (bus : Fin 256) (device : Fin 32) : List (Fin 8) :=
  if c.Present ⟨bus, device, 0⟩ ∧ c.multiAt ⟨bus, device, 0⟩ = true then laterFunctions else []

/-- The addresses of a device that are read. -/
def callsOf (c : ConfigSpace) (bus : Fin 256) (device : Fin 32) : List Address :=
  ⟨bus, device, 0⟩ :: (c.laterOf bus device).map fun function => ⟨bus, device, function⟩

/-- The addresses of a bus that are read. -/
def busCalls (c : ConfigSpace) (bus : Fin 256) : List Address :=
  (List.finRange 32).flatMap (c.callsOf bus)

/-- Those at which there is a function. -/
def foundOf (c : ConfigSpace) (bus : Fin 256) (device : Fin 32) : List Address :=
  (c.callsOf bus device).filter (c.Present ·)

/-- Where a function of a bus leads. -/
def behind (c : ConfigSpace) (bus : Fin 256) (address : Address) : Option (Fin 256) :=
  if c.headerAt address = headerBridge ∧ c.read8 address Pci.classCode = 0x06 ∧
      c.read8 address Pci.subclass = 0x04 then
    if c.secondaryOf address ≠ 0 ∧ c.secondaryOf address ≠ bus then
      some (c.secondaryOf address) else none
  else none

/-- The buses that a bus leads to, the last one pushed in front. -/
def nextBuses (c : ConfigSpace) (bus : Fin 256) : List (Fin 256) :=
  ((List.finRange 32).flatMap fun device => (c.foundOf bus device).filterMap (c.behind bus)).reverse

/-- The buses that are pending at first, the last one in front. -/
def roots (c : ConfigSpace) : List (Fin 256) :=
  (((c.laterOf 0 0).filter fun function => c.Present ⟨0, 0, function⟩).map
    (Fin.castLE functions_le_buses)).reverse ++
    [0]

/-- A device as it was read in the course of the scan. -/
def ReadOf (c₀ : ConfigSpace) (d : PciDevice) : Prop :=
  ∃ c, Near c₀ c ∧ (Pci.readDevice c d.address).1 = some d

end ConfigSpace

open ConfigSpace

/-! ## The scan is that walk -/

theorem readDevice_near (h : Near c₀ c) (address : Address) :
    (readDevice c address).1 = none ∧ ¬ c₀.Present address ∨
      ∃ d, (readDevice c address).1 = some d ∧ c₀.Present address ∧ d.address = address ∧
        d.multifunction = c₀.multiAt address ∧ c₀.ReadOf d := by
  by_cases hpresent : c₀.Present address
  · obtain ⟨d, hread, haddress, -, -, -, hmulti, -⟩ :=
      readDevice_present ((h.present_iff address).mpr hpresent)
    refine .inr ⟨d, hread, hpresent, haddress, ?_, c, h, ?_⟩
    · rw [hmulti, multiAt, h.headerByte]
    · rw [haddress]
      exact hread
  · rw [readDevice_absent fun hp => hpresent ((h.present_iff address).mp hp)]
    exact .inl ⟨rfl, hpresent⟩

/-- What a read device says about where it leads is what its registers said at the start. -/
theorem busBehind_near (h : Near c₀ c) {d : PciDevice} (hd : c₀.ReadOf d) (bus : Fin 256) :
    busBehind c bus d = c₀.behind bus d.address := by
  obtain ⟨c₁, h₁, hread⟩ := hd
  have hpresent : c₁.Present d.address := by
    by_contra habsent
    rw [readDevice_absent habsent] at hread
    contradiction
  obtain ⟨d', hread', -, hheader, hclass, hsubclass, -, -⟩ := readDevice_present hpresent
  obtain rfl := Option.some.inj (hread.symm.trans hread')
  have hiff : (d.isBridge = true ∧ d.classCode = 0x06 ∧ d.subclass = 0x04) ↔
      (c₀.headerAt d.address = headerBridge ∧ c₀.read8 d.address classCode = 0x06 ∧
        c₀.read8 d.address subclass = 0x04) := by
    rw [PciDevice.isBridge, beq_iff_eq, hheader, hclass, hsubclass, h₁.headerAt, h₁.classByte,
      h₁.subclassByte]
  by_cases hbridge : c₀.headerAt d.address = headerBridge ∧ c₀.read8 d.address classCode = 0x06 ∧
      c₀.read8 d.address subclass = 0x04
  · rw [busBehind, behind, if_pos (hiff.mpr hbridge), if_pos hbridge, h.secondaryByte hbridge.1]
    rfl
  · rw [busBehind, behind, if_neg fun hin => hbridge (hiff.mp hin), if_neg hbridge]

theorem readFunctions_near (h : Near c₀ c) (bus : Fin 256) (device : Fin 32)
    (functions : List (Fin 8)) :
    let addresses : List Address := functions.map fun function => ⟨bus, device, function⟩
    (readFunctions bus device functions c).2 = c.visits addresses ∧
      (readFunctions bus device functions c).1.map PciDevice.address =
        addresses.filter (c₀.Present ·) ∧
      ∀ d ∈ (readFunctions bus device functions c).1, c₀.ReadOf d := by
  induction functions generalizing c with
  | nil => exact ⟨rfl, rfl, (fun _ h => by cases h)⟩
  | cons function functions ih =>
    obtain ⟨hspace, hfound, hread⟩ := ih (h.readDevice ⟨bus, device, function⟩)
    intro addresses
    rw [readFunctions]
    dsimp only
    refine ⟨hspace, ?_, ?_⟩
    · rw [List.map_append, hfound]
      simp only [addresses, List.map_cons]
      rcases readDevice_near h ⟨bus, device, function⟩ with ⟨hnone, habsent⟩ | ⟨d, hsome, hpresent,
        haddress, -, -⟩
      · rw [hnone, List.filter_cons_of_neg (by simpa using habsent)]
        rfl
      · rw [hsome, List.filter_cons_of_pos (by simpa using hpresent)]
        change [d.address] ++ _ = _
        rw [haddress]
        rfl
    · intro d hd
      rcases List.mem_append.mp hd with hfirst | hlater
      · rcases readDevice_near h ⟨bus, device, function⟩ with ⟨hnone, -⟩ | ⟨d', hsome, -, -, -, hd'⟩
        · rw [hnone] at hfirst
          contradiction
        · rw [hsome] at hfirst
          obtain rfl := List.mem_singleton.mp hfirst
          exact hd'
      · exact hread d hlater

theorem readDeviceFunctions_near (h : Near c₀ c) (bus : Fin 256) (device : Fin 32) :
    (readDeviceFunctions bus device c).2 = c.visits (c₀.callsOf bus device) ∧
      (readDeviceFunctions bus device c).1.map PciDevice.address = c₀.foundOf bus device ∧
      ∀ d ∈ (readDeviceFunctions bus device c).1, c₀.ReadOf d := by
  have hnear := h.readDevice ⟨bus, device, 0⟩
  rw [readDeviceFunctions]
  rcases hresult : readDevice c ⟨bus, device, 0⟩ with ⟨result, c₁⟩
  rw [hresult] at hnear
  rcases readDevice_near h ⟨bus, device, 0⟩ with ⟨hnone, habsent⟩ | ⟨d, hsome, hpresent, haddress,
    hmulti, hread⟩
  · rw [hresult] at hnone
    obtain rfl : result = none := hnone
    have hlater : c₀.laterOf bus device = [] := if_neg fun hin => habsent hin.1
    refine ⟨?_, ?_, (by simp)⟩
    · rw [callsOf, hlater]
      exact (congrArg Prod.snd hresult).symm
    · rw [foundOf, callsOf, hlater, List.map_nil, List.filter_cons_of_neg (by simpa using habsent)]
      rfl
  · rw [hresult] at hsome
    obtain rfl : result = some d := hsome
    have hlater : (if d.multifunction then laterFunctions else []) = c₀.laterOf bus device := by
      rw [hmulti, laterOf]
      by_cases hbit : c₀.multiAt ⟨bus, device, 0⟩ = true
      · rw [if_pos hbit, if_pos ⟨hpresent, hbit⟩]
      · rw [if_neg hbit, if_neg fun hin => hbit hin.2]
    obtain ⟨hspace, hfound, hreads⟩ := readFunctions_near hnear bus device (c₀.laterOf bus device)
    dsimp only
    rw [hlater]
    refine ⟨?_, ?_, ?_⟩
    · rw [hspace, callsOf]
      have hfirst : c₁ = (readDevice c ⟨bus, device, 0⟩).2 := (congrArg Prod.snd hresult).symm
      rw [hfirst]
      rfl
    · rw [List.map_cons, hfound, haddress, foundOf, callsOf,
        List.filter_cons_of_pos (by simpa using hpresent)]
    · intro d' hd'
      rcases List.mem_cons.mp hd' with rfl | hd'
      · exact hread
      · exact hreads d' hd'

/-- One bus: what is pushed, and the functions found. -/
theorem scanBus_near (h : Near c₀ c) (devices : List PciDevice) (bus : Fin 256) :
    (scanBus bus (devices, c)).1 = c₀.nextBuses bus ∧
      (scanBus bus (devices, c)).2.2 = c.visits (c₀.busCalls bus) ∧
      ∃ found, (scanBus bus (devices, c)).2.1 = devices ++ found ∧
        found.map PciDevice.address = (List.finRange 32).flatMap (c₀.foundOf bus) ∧
        ∀ d ∈ found, c₀.ReadOf d := by
  -- the loop over any devices, with what was pushed and found before
  have hloop : ∀ (l : List (Fin 32)) (pushed : List (Fin 256)) (devices : List PciDevice)
    (c : ConfigSpace),
      Near c₀ c →
      let acc := l.foldl (scanDevice bus) (pushed, devices, c)
      acc.1 = (l.flatMap fun device => (c₀.foundOf bus device).filterMap
        (c₀.behind bus)).reverse ++ pushed ∧
        acc.2.2 = c.visits (l.flatMap (c₀.callsOf bus)) ∧
        ∃ found, acc.2.1 = devices ++ found ∧
          found.map PciDevice.address = l.flatMap (c₀.foundOf bus) ∧ ∀ d ∈ found, c₀.ReadOf d := by
    intro l
    induction l with
    | nil =>
      intro pushed devices c _
      exact ⟨rfl, rfl, [], (List.append_nil _).symm, rfl, (by simp)⟩
    | cons device l ih =>
      intro pushed devices c h
      obtain ⟨hspace, hfound, hreads⟩ := readDeviceFunctions_near h bus device
      rcases hresult : readDeviceFunctions bus device c with ⟨found, c₁⟩
      rw [hresult] at hspace hfound hreads
      have hnear : Near c₀ c₁ := by
        rw [show c₁ = _ from hspace]
        exact h.visits _
      have hbehind : found.filterMap (busBehind c₁ bus) =
          (c₀.foundOf bus device).filterMap (c₀.behind bus) := by
        rw [← hfound, List.filterMap_map]
        exact List.filterMap_congr fun d hd => busBehind_near hnear (hreads d hd) bus
      obtain ⟨hpushed, hlast, rest, hdevices, haddresses, hrest⟩ :=
        ih ((found.filterMap (busBehind c₁ bus)).reverse ++ pushed) (devices ++ found) c₁ hnear
      have hstep : scanDevice bus (pushed, devices, c) device =
          ((found.filterMap (busBehind c₁ bus)).reverse ++ pushed, devices ++ found, c₁) := by
        simp only [scanDevice, hresult]
      rw [List.foldl_cons, hstep]
      refine ⟨?_, ?_, found ++ rest, ?_, ?_, ?_⟩
      · rw [hpushed, hbehind, List.flatMap_cons, List.reverse_append, List.append_assoc]
      · rw [hlast, List.flatMap_cons, visits_append, ← show c₁ = _ from hspace]
      · rw [hdevices, List.append_assoc]
      · rw [List.map_append, haddresses, List.flatMap_cons]
        exact congrArg (· ++ _) hfound
      · intro d hd
        rcases List.mem_append.mp hd with hd | hd
        · exact hreads d hd
        · exact hrest d hd
  obtain ⟨hpushed, hspace, hfound⟩ := hloop (List.finRange 32) [] devices c h
  rw [List.append_nil] at hpushed
  unfold scanBus
  exact ⟨hpushed, hspace, hfound⟩

theorem hostBuses_near (h : Near c₀ c) (functions : List (Fin 8)) :
    (hostBuses functions c).2 = c.visits (functions.map fun function => ⟨0, 0, function⟩) ∧
      (hostBuses functions c).1 =
        (functions.filter fun function => c₀.Present ⟨0, 0, function⟩).map
          (Fin.castLE functions_le_buses) := by
  induction functions generalizing c with
  | nil => exact ⟨rfl, rfl⟩
  | cons function functions ih =>
    obtain ⟨hspace, hbuses⟩ := ih (h.readDevice ⟨0, 0, function⟩)
    rw [hostBuses]
    dsimp only
    refine ⟨hspace, ?_⟩
    rw [hbuses]
    rcases readDevice_near h ⟨0, 0, function⟩ with ⟨hnone, habsent⟩ | ⟨d, hsome, hpresent, -⟩
    · rw [hnone, List.filter_cons_of_neg (by simpa using habsent)]
      rfl
    · rw [hsome, List.filter_cons_of_pos (by simpa using hpresent)]
      rfl

theorem rootBuses_near (c : ConfigSpace) :
    (rootBuses c).1 = c.roots ∧ (rootBuses c).2 = c.visits (c.callsOf 0 0) := by
  have hnear := (Near.refl c).readDevice ⟨0, 0, 0⟩
  rw [rootBuses]
  rcases hresult : readDevice c ⟨0, 0, 0⟩ with ⟨result, c₁⟩
  rw [hresult] at hnear
  have hfirst : c₁ = (readDevice c ⟨0, 0, 0⟩).2 := (congrArg Prod.snd hresult).symm
  rcases readDevice_near (Near.refl c) ⟨0, 0, 0⟩ with ⟨hnone, habsent⟩ | ⟨d, hsome,
    hpresent, -, hmulti, -⟩
  · rw [hresult] at hnone
    obtain rfl : result = none := hnone
    have hlater : c.laterOf 0 0 = [] := if_neg fun hin => habsent hin.1
    rw [roots, callsOf, hlater]
    exact ⟨rfl, hfirst⟩
  · rw [hresult] at hsome
    obtain rfl : result = some d := hsome
    have hlater : (if d.multifunction then laterFunctions else []) = c.laterOf 0 0 := by
      rw [hmulti, laterOf]
      by_cases hbit : c.multiAt ⟨0, 0, 0⟩ = true
      · rw [if_pos hbit, if_pos ⟨hpresent, hbit⟩]
      · rw [if_neg hbit, if_neg fun hin => hbit hin.2]
    obtain ⟨hspace, hbuses⟩ := hostBuses_near hnear (c.laterOf 0 0)
    dsimp only
    rw [hlater, hbuses, hspace, hfirst]
    exact ⟨rfl, rfl⟩

/-- The buses that are scanned, in order. -/
def ConfigSpace.busOrder (c : ConfigSpace) : List (Fin 256) :=
  Worklist.order c.nextBuses ∅ c.roots

/-- Every address that is read, in order. -/
def ConfigSpace.calls (c : ConfigSpace) : List Address :=
  c.callsOf 0 0 ++ c.busOrder.flatMap c.busCalls

/-- The addresses of the functions that the scan returns, in the order in which they are found. -/
def ConfigSpace.found (c : ConfigSpace) : List Address :=
  c.busOrder.flatMap fun bus => (List.finRange 32).flatMap (c.foundOf bus)

/-- The scan reads the addresses of the walk, and returns the functions it finds. -/
theorem scan_eq (c : ConfigSpace) :
    (scan c).2 = c.visits c.calls ∧
      ∃ devices : List PciDevice,
        (scan c).1 = devices.mergeSort (fun a b => Address.le a.address b.address) ∧
        devices.map PciDevice.address = c.found ∧ ∀ d ∈ devices, c.ReadOf d := by
  obtain ⟨hroots, hspace⟩ := rootBuses_near c
  have hnear : Near c (rootBuses c).2 := by
    rw [hspace]
    exact (Near.refl c).visits _
  have hexpand : ∀ bus (s : List PciDevice × ConfigSpace), Near c s.2 →
      (scanBus bus s).1 = c.nextBuses bus ∧ Near c (scanBus bus s).2.2 := by
    rintro bus ⟨devices, c'⟩ hs
    obtain ⟨hnext, hvisits, -⟩ := scanBus_near hs devices bus
    rw [hvisits]
    exact ⟨hnext, hs.visits _⟩
  have hrun := Worklist.run_eq_foldl (fun s : List PciDevice × ConfigSpace => Near c s.2)
    hexpand ∅ c.roots
    (s := ([], (rootBuses c).2)) hnear
  -- the buses of the walk, one after the other
  have hloop : ∀ (l : List (Fin 256)) (devices : List PciDevice) (c' : ConfigSpace), Near c c' →
      let s := l.foldl (fun s bus => (scanBus bus s).2) (devices, c')
      s.2 = c'.visits (l.flatMap c.busCalls) ∧
        ∃ found, s.1 = devices ++ found ∧
          found.map PciDevice.address =
            (l.flatMap fun bus => (List.finRange 32).flatMap (c.foundOf bus)) ∧
          ∀ d ∈ found, c.ReadOf d := by
    intro l
    induction l with
    | nil =>
      intro devices c' _
      exact ⟨rfl, [], (List.append_nil _).symm, rfl, (by simp)⟩
    | cons bus l ih =>
      intro devices c' h
      obtain ⟨-, hvisits, found, hdevices, haddresses, hreads⟩ := scanBus_near h devices bus
      rcases hresult : scanBus bus (devices, c') with ⟨pushed, devices₁, c₁⟩
      rw [hresult] at hvisits hdevices
      obtain rfl : devices₁ = devices ++ found := hdevices
      have hnear₁ : Near c c₁ := by
        rw [show c₁ = _ from hvisits]
        exact h.visits _
      obtain ⟨hlast, rest, hall, hrestAddresses, hrest⟩ := ih (devices ++ found) c₁ hnear₁
      rw [List.foldl_cons, hresult]
      refine ⟨?_, found ++ rest, ?_, ?_, ?_⟩
      · rw [hlast, List.flatMap_cons, visits_append, ← show c₁ = _ from hvisits]
      · rw [hall, List.append_assoc]
      · rw [List.map_append, haddresses, hrestAddresses, List.flatMap_cons]
      · intro d hd
        rcases List.mem_append.mp hd with hd | hd
        · exact hreads d hd
        · exact hrest d hd
  obtain ⟨hlast, found, hdevices, haddresses, hreads⟩ := hloop c.busOrder [] (rootBuses c).2 hnear
  rw [scan]
  dsimp only
  rw [hroots, hrun]
  refine ⟨?_, found, ?_, haddresses, hreads⟩
  · rw [calls, visits_append, ← hspace]
    exact hlast
  · rw [← List.nil_append found, ← hdevices]
    rfl

end SaeOS.Pci
