import Mathlib.Data.List.Nodup
import SaeOS.Lib.Run
import SaeOS.Mm.KernelTablesDrop
import SaeOS.Mm.KernelTablesRange

/-!
# Runs of the kernel page tables

The kernel maps, remaps and unmaps pages, ranges and device registers in any order, while the rest
of the kernel allocates frames and writes to whatever is no table. The runs are those whose ranges
put no chunk of 2 MiB under a leaf of 1 GiB (`Guard`), where `child` would take the leaf's memory
for a table. In every state that they reach, an edit of a page leaves all other pages alone, a range
is mapped as a whole, and the walk in software finds what the processor finds. Once the kernel half
of the root is complete, its entries do not change any more, so the roots that have copied it stay
right.
-/

namespace SaeOS.KernelTables

open TableTree Machine

variable {s s' : Machine} {va pa x : ℕ} {page v : Page}

/-! ## Unmapping -/

theorem tableFromEntry_eq_some {k : ℕ} {entry table : Word} (hk : k < 3)
    (h : tableFromEntry entry = some table) :
    decode k entry = .link table := by
  unfold tableFromEntry at h
  split_ifs at h with hnone
  rw [not_or, Bool.not_eq_false] at hnone
  exact decode_eq_link.mpr ⟨hnone.1, hk, fun hleaf => hnone.2 hleaf.2, Option.some.inj h⟩

/-- What unmapping a page comes to. -/
structure UnmapsPage (s s' : Machine) (va : ℕ) (physical : ℕ) : Prop where
  inv : Inv s'
  keeps : Keeps s s'
  found : ∃ page, s.MapsTo va page ∧ page.physical = physical
  unmapped : ∀ {q v}, Agree 4 q (index va) → ¬Maps layout s'.mem s'.root q v
  others : ∀ {q v}, ¬Agree 4 q (index va) →
    (Maps layout s'.mem s'.root q v ↔ Maps layout s.mem s.root q v)

theorem Machine.Inv.unmapPage {r : Except MapError ℕ} (h : Inv s)
    (hunmap : s.unmapPage va = (r, s')) :
    (∃ e, r = .error e ∧ s' = s) ∨ ∃ physical, r = .ok physical ∧ UnmapsPage s s' va physical := by
  unfold Machine.unmapPage at hunmap
  split_ifs at hunmap with haddress
  · obtain ⟨rfl, rfl⟩ := Prod.mk.inj hunmap
    exact .inl ⟨_, rfl, rfl⟩
  dsimp only at hunmap
  cases hslot : (do
      let pdpt ← tableFromEntry (s.mem s.root (index va 0))
      let pd ← tableFromEntry (s.mem pdpt (index va 1))
      tableFromEntry (s.mem pd (index va 2))) with
  | none =>
    rw [hslot] at hunmap
    obtain ⟨rfl, rfl⟩ := Prod.mk.inj hunmap
    exact .inl ⟨_, rfl, rfl⟩
  | some pt =>
    rw [hslot] at hunmap
    obtain ⟨pdpt, hpdpt, hrest⟩ := Option.bind_eq_some_iff.mp hslot
    obtain ⟨pd, hpd, hpt⟩ := Option.bind_eq_some_iff.mp hrest
    have hroute : route layout s.mem s.root (index va) 3 = some pt :=
      route_succ_eq_some.mpr ⟨pd, route_succ_eq_some.mpr ⟨pdpt, route_succ_eq_some.mpr
        ⟨s.root, rfl, tableFromEntry_eq_some (by decide) hpdpt⟩,
          tableFromEntry_eq_some (by decide) hpd⟩,
        tableFromEntry_eq_some (by decide) hpt⟩
    have hnolink : ∀ (e : Word) g, decode 3 e ≠ .link g := fun e g hlink => by
      have := (decode_eq_link.mp hlink).2.1
      omega
    dsimp only at hunmap
    split_ifs at hunmap with hnone
    · obtain ⟨rfl, rfl⟩ := Prod.mk.inj hunmap
      exact .inl ⟨_, rfl, rfl⟩
    · obtain ⟨rfl, rfl⟩ := Prod.mk.inj hunmap
      rw [not_or, Bool.not_eq_false] at hnone
      have hfresh : Fresh layout s.mem s.root 3 0#64 := fun g hg => absurd hg (hnolink 0#64 g)
      have hleaf : decode 3 (s.mem pt (index va 3)) =
          .leaf fun _ => leafPage (s.mem pt (index va 3)) physMask4K pat4K 0 := by
        unfold decode
        rw [if_neg (by simp [hnone.1]), if_pos le_rfl]
      refine .inr ⟨_, rfl, h.write hroute ⟨hfresh, fun g hg => absurd hg (hnolink _ g),
        fun hk => by omega⟩,
        h.keeps_write hroute (hnolink _) (hnolink _), ⟨_, (maps_of_leaf hroute hleaf).mpr rfl, rfl⟩,
        fun {q v} hon hmaps => ?_, fun {q v} hoff => h.tree.maps_store_of_not_agree hroute hoff⟩
      obtain ⟨value, hvalue, -⟩ | ⟨f, value, hf, -⟩ :=
        (h.tree.maps_store_of_agree hroute hfresh hon).mp hmaps
      · rw [layout_decode, decode_zero] at hvalue
        contradiction
      · exact hnolink 0#64 f hf

/-! ## Runs -/

namespace Machine

/-- `prepopulate_kernel_slots`, which freezes the slots. -/
def prepopulate : List ℕ → Machine → Option Machine
  | [], s => some { s with frozen := true }
  | i :: slots, s =>
    match s.child s.root i with
    | (none, _) => none
    | (some _, s) => prepopulate slots s

/-- The slots of the kernel half. -/
def kernelSlots : List ℕ :=
  List.range' kernelPml4First 256

/-- `kernel_half_matches`. -/
def kernelHalfMatches (s : Machine) (theirs : Word) : Bool :=
  kernelSlots.all fun i => has (s.mem s.root i) present && s.mem theirs i == s.mem s.root i

/-- The edits, and what the rest of the kernel does to memory. -/
inductive Op
  | map (virtualAddress physical : ℕ) (flags : PageFlags)
  | remap (virtualAddress physical : ℕ) (flags : PageFlags)
  | unmap (virtualAddress : ℕ)
  | range (start stop : ℕ) (direct : Bool) (kind : PhysicalMemoryKind) (gigabytePages : Bool)
  | mmio (physical length : ℕ)
  | freeze
  | dropLowerHalf
  | other (mem : Word → ℕ → Word) (free : List Word)

/-- The zeroed root, and frames that are page aligned and not the root. -/
def Initial (s : Machine) : Prop :=
  s.mem s.root = (fun _ => 0#64) ∧ s.free.Nodup ∧
    (∀ f ∈ s.free, f &&& physMask4K = f ∧ f ≠ s.root) ∧ s.frozen = false

/-- One edit that does not panic. The rest of the kernel leaves tables alone, and no table is ever
free. -/
def Step (s : Machine) : Op → Machine → Prop
  | .map virtualAddress physical flags, s' =>
    ∃ r, s.mapPage virtualAddress physical flags = some (r, s')
  | .remap virtualAddress physical flags, s' =>
    ∃ r, s.remapPage virtualAddress physical flags = some (r, s')
  | .unmap virtualAddress, s' => s' = (s.unmapPage virtualAddress).2
  | .range start stop direct kind gigabytePages, s' =>
    ∃ r, s.mapRange start stop direct kind gigabytePages = some (r, s')
  | .mmio physical length, s' => ∃ r, s.mapMmio physical length = some (r, s')
  | .freeze, s' => prepopulate kernelSlots s = some s'
  | .dropLowerHalf, s' => s' = s.dropLowerHalf
  | .other mem free, s' => s' = { s with mem, free } ∧
    (∀ f, Reached layout s.mem s.root f → mem f = s.mem f) ∧
    free.Nodup ∧ ∀ f ∈ free, f &&& physMask4K = f ∧ ¬Reached layout s.mem s.root f

/-- No chunk of 2 MiB of a range lies under a leaf of 1 GiB. -/
def Guard (s : Machine) : Op → Prop
  | .range start stop direct kind gigabytePages =>
    Clear s (rangeOffset direct) (chunks kind gigabytePages stop (stop - start) start)
  | .map _ _ _ | .remap _ _ _ | .unmap _ | .mmio _ _ | .freeze | .dropLowerHalf | .other _ _ => True

/-- Once the slots are frozen, they are all there. -/
def Complete (s : Machine) : Prop :=
  s.frozen = true → ∀ i ∈ kernelSlots, has (s.mem s.root i) present = true

theorem Keeps.complete (h : Keeps s s') (hcomplete : Complete s) : Complete s' := by
  intro hfrozen i hi
  have hpresent := hcomplete (h.frozen_eq ▸ hfrozen) i hi
  rwa [h.top hpresent]

theorem Inv.prepopulate {slots : List ℕ} (h : Inv s)
    (hfreeze : Machine.prepopulate slots s = some s') :
    Inv s' ∧ s'.root = s.root ∧ Same s s' ∧
      (∀ {i}, has (s.mem s.root i) present = true → s'.mem s'.root i = s.mem s.root i) ∧
      s'.frozen = true ∧ ∀ i ∈ slots, has (s'.mem s'.root i) present = true := by
  induction slots generalizing s with
  | nil =>
    obtain rfl := Option.some.inj hfreeze
    exact ⟨⟨h.tree, h.link, h.blank, h.nodup, h.fresh⟩, rfl, ⟨fun _ => Iff.rfl⟩, fun _ => rfl, rfl,
      fun i hi => by cases hi⟩
  | cons i slots ih =>
    rw [Machine.prepopulate] at hfreeze
    obtain ⟨hway, hsome, -⟩ := h.child (p := fun _ => i) (k := 0) rfl (by decide) (by simp)
    cases hchild : s.child s.root i with
    | mk found s₁ =>
      rw [hchild] at hfreeze hway hsome
      cases found with
      | none => contradiction
      | some t =>
        obtain ⟨hinv, hroot, hsame, htop, hfrozen, hall⟩ := ih hway.inv hfreeze
        refine ⟨hinv, hroot.trans hway.keeps.root_eq, hway.same.trans hsame,
          fun {j} hj => ?_, hfrozen, fun j hj => ?_⟩
        · exact (htop (by rwa [hway.keeps.top hj])).trans (hway.keeps.top hj)
        · obtain rfl | hj := List.mem_cons.mp hj
          · obtain ⟨table, htable, hlink⟩ := route_succ_eq_some.mp (hsome t rfl)
            obtain rfl := Option.some.inj htable
            have hpresent := (decode_eq_link.mp hlink).1
            rwa [htop hpresent]
          · exact hall j hj

/-- A frame for every slot is enough. -/
theorem prepopulate_of_frames (slots : List ℕ) (s : Machine) (h : slots.length ≤ s.free.length) :
    ∃ s', Machine.prepopulate slots s = some s' ∧ s'.frozen = true ∧
      s.free.length ≤ s'.free.length + slots.length := by
  induction slots generalizing s with
  | nil => exact ⟨_, rfl, rfl, le_rfl⟩
  | cons i slots ih =>
    rw [List.length_cons] at h
    have hchild : ∃ t s₁, s.child s.root i = (some t, s₁) ∧ s.free.length ≤ s₁.free.length + 1 := by
      unfold Machine.child Machine.allocTable
      split_ifs with hpresent
      · exact ⟨_, _, rfl, Nat.le_succ _⟩
      · cases hfree : s.free with
        | nil =>
          rw [hfree] at h
          exact absurd h (Nat.not_succ_le_zero _)
        | cons frame free => exact ⟨_, _, rfl, le_rfl⟩
    obtain ⟨t, s₁, hfound, hle⟩ := hchild
    obtain ⟨s', hrest, hfrozen, hlen⟩ := ih s₁ (by omega)
    refine ⟨s', ?_, hfrozen, by rw [List.length_cons]; omega⟩
    rw [Machine.prepopulate, hfound]
    exact hrest

/-- The entries of the root in the kernel half that are there stay. -/
structure KeepsUpper (s s' : Machine) : Prop where
  root_eq : s'.root = s.root
  upper : ∀ {i}, kernelPml4First ≤ i → has (s.mem s.root i) present = true →
    s'.mem s'.root i = s.mem s.root i
  complete : Complete s → Complete s'
  frozen : s.frozen = true → s'.frozen = true

theorem Keeps.keepsUpper (h : Keeps s s') : KeepsUpper s s' :=
  ⟨h.root_eq, fun _ => h.top, h.complete, fun hf => h.frozen_eq.trans hf⟩

theorem first_le_of_mem {i : ℕ} (h : i ∈ kernelSlots) : kernelPml4First ≤ i :=
  (List.mem_range'_1.mp h).1

theorem keepsUpper_of_drops {freed : List Word} (h : DropsLowerHalf s s' freed) :
    KeepsUpper s s' := by
  refine ⟨h.root_eq, fun hi _ => ?_, fun hcomplete hfrozen i hi => ?_,
    fun hf => h.frozen_eq.trans hf⟩
  · rw [h.root_eq, h.upper _ hi]
  · rw [h.root_eq, h.upper _ (first_le_of_mem hi)]
    exact hcomplete (h.frozen_eq ▸ hfrozen) i hi

/-- What the rest of the kernel does keeps the tables. -/
theorem Inv.other {mem : Word → ℕ → Word} {free : List Word} (h : Inv s)
    (hstep : Step s (.other mem free) s') :
    Inv s' ∧ KeepsUpper s s' := by
  obtain ⟨rfl, hsame, hnodup, hfresh⟩ := hstep
  have hroot : mem s.root = s.mem s.root := hsame s.root ⟨fun _ => 0, 0, rfl⟩
  refine ⟨⟨tree_congr hsame h.tree, fun {p d f g} hp hlink => ?_,
    fun {p d f} hp hd hnone => ?_, hnodup, fun f hf => ?_⟩,
    rfl, fun _ _ => congrFun hroot _, fun hcomplete hfrozen i hi => ?_, fun hfrozen => hfrozen⟩
  · have hp : route layout s.mem s.root p d = some f := (route_congr hsame).symm.trans hp
    change mem f (p d) = _
    change decode d (mem f (p d)) = _ at hlink
    rw [hsame f ⟨p, d, hp⟩] at hlink ⊢
    exact h.link hp hlink
  · have hp : route layout s.mem s.root p d = some f := (route_congr hsame).symm.trans hp
    change has (mem f (p d)) huge = _
    change has (mem f (p d)) present = _ at hnone
    rw [hsame f ⟨p, d, hp⟩] at hnone ⊢
    exact h.blank hp hd hnone
  · exact ⟨(hfresh f hf).1, fun hreached => (hfresh f hf).2 ((reached_congr hsame).mp hreached)⟩
  · change has (mem s.root i) present = true
    rw [hroot]
    exact hcomplete hfrozen i hi

/-- Every step keeps the tables and the kernel half of the root. -/
theorem Inv.step {op : Op} (h : Inv s) (hguard : Guard s op) (hstep : Step s op s') :
    Inv s' ∧ KeepsUpper s s' := by
  cases op with
  | map virtualAddress physical flags =>
    obtain ⟨r, hmap⟩ := hstep
    exact ⟨(h.mapPageLocked hmap).inv, (h.mapPageLocked hmap).keeps.keepsUpper⟩
  | remap virtualAddress physical flags =>
    obtain ⟨r, hmap⟩ := hstep
    exact ⟨(h.mapPageLocked hmap).inv, (h.mapPageLocked hmap).keeps.keepsUpper⟩
  | unmap virtualAddress =>
    obtain ⟨e, -, heq⟩ | ⟨physical, -, hunmaps⟩ :=
      h.unmapPage (show s.unmapPage virtualAddress = (_, s') by rw [hstep])
    · rw [heq]
      exact ⟨h, (Keeps.refl s).keepsUpper⟩
    · exact ⟨hunmaps.inv, hunmaps.keeps.keepsUpper⟩
  | range start stop direct kind gigabytePages =>
    obtain ⟨r, hmap⟩ := hstep
    obtain ⟨n, -, hpages, -⟩ := h.mapRange hguard hmap
    exact ⟨hpages.inv, hpages.keeps.keepsUpper⟩
  | mmio physical length =>
    obtain ⟨r, hmap⟩ := hstep
    obtain ⟨n, -, hpages, -⟩ := h.mapMmio hmap
    exact ⟨hpages.inv, hpages.keeps.keepsUpper⟩
  | freeze =>
    obtain ⟨hinv, hroot, -, htop, hfrozen, hall⟩ := h.prepopulate hstep
    exact ⟨hinv, hroot, fun _ => htop, fun _ _ => hall, fun _ => hfrozen⟩
  | dropLowerHalf =>
    have heq : s' = s.dropLowerHalf := hstep
    obtain ⟨freed, hdrops⟩ := h.dropsLowerHalf
    rw [← heq] at hdrops
    exact ⟨hdrops.inv h, keepsUpper_of_drops hdrops⟩
  | other mem free => exact h.other hstep

theorem Initial.inv (h : Initial s) : Inv s := by
  obtain ⟨hzero, hnodup, hfree, -⟩ := h
  -- no entry leads anywhere
  have hroute : ∀ {p d f}, route layout s.mem s.root p d = some f → d = 0 ∧ f = s.root := by
    intro p d f hp
    cases d with
    | zero => exact ⟨rfl, (Option.some.inj hp).symm⟩
    | succ d =>
      obtain ⟨f, hf⟩ := route_of_le hp (show 1 ≤ d + 1 by omega)
      obtain ⟨table, htable, hlink⟩ := route_succ_eq_some.mp hf
      rw [← Option.some.inj htable, hzero, layout_decode, decode_zero] at hlink
      contradiction
  refine ⟨⟨fun {p q d e f} hp hq => ?_⟩, fun {p d f g} hp hlink => ?_,
    fun {p d f} hp _ hnone => ?_, hnodup, fun f hf => ?_⟩
  · exact ⟨(hroute hp).1.trans (hroute hq).1.symm, fun i hi => by have := (hroute hp).1; omega⟩
  · rw [(hroute hp).2, hzero, decode_zero] at hlink
    contradiction
  · rw [(hroute hp).2, hzero]
    exact show has 0#64 huge = false by decide
  · refine ⟨(hfree f hf).1, ?_⟩
    rintro ⟨p, d, hp⟩
    exact (hfree f hf).2 (hroute hp).2

/-- Kernel tables that are reached by edits whose ranges put no chunk of 2 MiB under a leaf of 1
GiB. -/
def Reachable : Machine → Prop :=
  Run.Reachable Initial (Run.Guarded Guard Step)

theorem Reachable.inv (h : Reachable s) : Inv s ∧ Complete s := by
  have hrun : Run.Reachable Initial (Run.Guarded Guard Step) s := h
  refine hrun.invariant (P := fun s => Inv s ∧ Complete s) (fun s hs => ⟨hs.inv, fun hfrozen => ?_⟩)
    fun s op s' hs hstep => ?_
  · rw [hs.2.2.2] at hfrozen
    contradiction
  · obtain ⟨hinv, hkeeps⟩ := hs.1.step hstep.1 hstep.2
    exact ⟨hinv, hkeeps.complete hs.2⟩

/-- A zeroed root with `n` frames to take. -/
def boot (n : ℕ) : Machine :=
  ⟨fun _ _ => 0#64, 0x1000, (List.range' 2 n).map fun i => BitVec.ofNat 64 (i * pageSize),
    false, false⟩

theorem reachable_boot {n : ℕ} (h : n ≤ 1000) : Reachable (boot n) := by
  have hnat : ∀ i ∈ List.range' 2 n, i * 4096 % 2 ^ 64 = i * 4096 ∧ 2 ≤ i := fun i hi => by
    have := List.mem_range'_1.mp hi
    exact ⟨Nat.mod_eq_of_lt (by omega), this.1⟩
  refine .start ⟨rfl, List.Nodup.map_on (fun i hi j hj heq => ?_)
    (List.nodup_range' (s := 2) (n := n)), fun f hf => ?_, rfl⟩
  · have := congrArg BitVec.toNat heq
    rw [BitVec.toNat_ofNat, BitVec.toNat_ofNat, pageSize, (hnat i hi).1, (hnat j hj).1] at this
    omega
  · obtain ⟨i, hi, rfl⟩ := List.mem_map.mp hf
    have hlt := List.mem_range'_1.mp hi
    refine ⟨ofNat_and_mask physMask4K_bits (k := 12) ⟨i, Nat.mul_comm i _⟩
      (by unfold pageSize; omega), fun heq => ?_⟩
    have := congrArg BitVec.toNat heq
    rw [BitVec.toNat_ofNat, pageSize, (hnat i hi).1] at this
    have hroot : (boot n).root.toNat = 4096 := rfl
    omega

/-- The first GiB of the direct map is one leaf. -/
theorem boot_giga : ∃ s, (boot 6).mapRange 0 gigabyte true .usable true = some (.ok (), s) ∧
    ∃ s', s.mapPageLocked (kernelVirtBase + 5 * 4096) 0x9000 .mmio .replace = some (.ok (), s') :=
  ⟨_, rfl, _, rfl⟩

theorem guard_giga : Guard (boot 6) (.range 0 gigabyte true .usable true) := by
  have hchunks : chunks .usable true gigabyte gigabyte 0 = [(0, gigabyte)] := by
    have hsize : chunkSize .usable true 0 (gigabyte - 0) = gigabyte :=
      if_pos ⟨by decide, rfl, Nat.zero_mod _, le_rfl⟩
    change chunks .usable true gigabyte (2 ^ 30 - 1 + 1) 0 = _
    rw [chunks, if_pos (by decide)]
    dsimp only
    rw [hsize, chunks_of_le (by rw [Nat.zero_add])]
  intro c hc htwo
  rw [Nat.sub_zero, hchunks, List.mem_singleton] at hc
  rw [hc] at htwo
  exact absurd htwo (by decide)

/-- **Ranges.** After success every page of the range is mapped to its own physical address with the
flags of its kind; a failure has mapped the pages of a first part. No other address is mapped
differently, and only tables are written. -/
theorem Reachable.mapRange_pages {start stop : ℕ} {direct : Bool} {kind : PhysicalMemoryKind}
    {gigabytePages : Bool}
    {r : Except MapError Unit} (h : Reachable s)
    (hguard : Guard s (.range start stop direct kind gigabytePages))
    (hmap : s.mapRange start stop direct kind gigabytePages = some (r, s')) :
    ∃ n ≤ pagesIn start stop, (r = .ok () → n = pagesIn start stop) ∧
      (∀ i < n, ∀ x, Canonical x → x / pageSize = (rangeOffset direct + start) / pageSize + i →
        s'.MapsTo x ((rangeFlags kind).page (start + i * pageSize))) ∧
      (∀ x page, Canonical x → (∀ i < n,
        x / pageSize ≠ (rangeOffset direct + start) / pageSize + i) →
        (s'.MapsTo x page ↔ s.MapsTo x page)) ∧
      ∀ f, s'.mem f ≠ s.mem f → Reached layout s'.mem s'.root f := by
  obtain ⟨n, hn, hpages, hall⟩ := h.inv.1.mapRange hguard hmap
  exact ⟨n, hn, hall, fun i hi x hx heq => hpages.mapped hi hx heq,
    fun x page hx hout => hpages.others hx hout,
    fun f => hpages.keeps.written⟩

theorem mapRange_giga : ∃ s, (boot 6).mapRange 0 gigabyte true .usable true = some (.ok (), s) ∧
    ∀ i < pagesIn 0 gigabyte, ∀ x, Canonical x →
      x / pageSize = (kernelVirtBase + 0) / pageSize + i →
      s.MapsTo x (PageFlags.writable.page (0 + i * pageSize)) := by
  obtain ⟨s, hrange, -⟩ := boot_giga
  obtain ⟨n, -, hall, hmapped, -⟩ := (reachable_boot (by decide)).mapRange_pages guard_giga hrange
  obtain rfl := hall rfl
  exact ⟨s, hrange, hmapped⟩

/-- In a run on from a state whose kernel half is complete, its entries never change. -/
theorem Inv.upper_run (h : Inv s) (hcomplete : Complete s) (hfrozen : s.frozen = true)
    (hrun : Run.Reachable (· = s) (Run.Guarded Guard Step) s') :
    s'.root = s.root ∧ ∀ i ∈ kernelSlots, s'.mem s'.root i = s.mem s.root i := by
  have hall := hcomplete hfrozen
  refine (hrun.invariant (P := fun t => Inv t ∧ t.root = s.root ∧
    ∀ i ∈ kernelSlots, t.mem t.root i = s.mem s.root i)
    (fun t ht => ?_) fun t op t' ht hstep => ?_).2
  · subst ht
    exact ⟨h, rfl, fun i _ => rfl⟩
  · obtain ⟨hinv, hkeeps⟩ := ht.1.step hstep.1 hstep.2
    refine ⟨hinv, hkeeps.root_eq.trans ht.2.1, fun i hi => ?_⟩
    rw [hkeeps.upper (first_le_of_mem hi) (by rw [ht.2.2 i hi]; exact hall i hi), ht.2.2 i hi]

/-- A new root takes a frame that is no table, and has the kernel half of this one. -/
theorem Inv.newRoot {theirs : Word} (h : Inv s) (hnew : s.newRoot = (some theirs, s')) :
    (∃ mem free, Step s (.other mem free) s') ∧
      ∀ i ∈ kernelSlots, s'.mem theirs i = s'.mem s'.root i := by
  unfold Machine.newRoot Machine.allocTable at hnew
  cases hfree : s.free with
  | nil =>
    rw [hfree] at hnew
    obtain ⟨hnone, -⟩ := Prod.mk.inj hnew
    contradiction
  | cons frame free =>
    rw [hfree] at hnew
    obtain ⟨hframe, rfl⟩ := Prod.mk.inj hnew
    obtain rfl := Option.some.inj hframe
    have hnot : ¬Reached layout s.mem s.root frame := (h.fresh frame (hfree ▸ List.mem_cons_self)).2
    have hroot : s.root ≠ frame := fun heq => hnot ⟨fun _ => 0, 0, congrArg some heq⟩
    refine ⟨⟨_, free, rfl, fun f hf => ?_, ?_,
      fun f hf => h.fresh f (hfree ▸ List.mem_cons_of_mem _ hf)⟩, fun i hi => ?_⟩
    · have hne : f ≠ frame := fun heq => hnot (heq ▸ hf)
      exact (Function.update_of_ne hne ..).trans (Function.update_of_ne hne ..)
    · exact (List.nodup_cons.mp (hfree ▸ h.nodup)).2
    · have hslot := List.mem_range'_1.mp hi
      simp only [fill, Function.update_self, Function.update_of_ne hroot]
      exact if_pos ⟨hslot.1, hslot.2⟩

/-- **A process sees the kernel.** A root that is made once the slots are frozen maps every kernel
address to what the kernel's own root maps it to, in every state of every run from there on, as long
as nobody writes to its kernel half. -/
theorem Reachable.newRoot_sees {t : Machine} {theirs : Word} (h : Reachable s)
    (hfrozen : s.frozen = true)
    (hnew : s.newRoot = (some theirs, t)) (hrun : Run.Reachable (· = t) (Run.Guarded Guard Step) s')
    (hkept : ∀ i ∈ kernelSlots, s'.mem theirs i = t.mem theirs i) :
    s'.kernelHalfMatches theirs = true ∧
      ∀ page, kernelVirtBase ≤ x → x < 2 ^ 64 →
        (Maps layout s'.mem theirs (index x) page ↔ s'.MapsTo x page) := by
  obtain ⟨⟨mem, free, hother⟩, hcopied⟩ := h.inv.1.newRoot hnew
  obtain ⟨hinv, hkeeps⟩ := h.inv.1.other hother
  have hcomplete := hkeeps.complete h.inv.2
  obtain ⟨-, hsame⟩ := hinv.upper_run hcomplete (hkeeps.frozen hfrozen) hrun
  have hmatches : ∀ i ∈ kernelSlots, s'.mem theirs i = s'.mem s'.root i := fun i hi => by
    rw [hkept i hi, hcopied i hi, hsame i hi]
  refine ⟨List.all_eq_true.mpr fun i hi => ?_, fun page hle hlt => ?_⟩
  · rw [hmatches i hi, beq_self_eq_true, Bool.and_true, hsame i hi]
    exact hcomplete (hkeeps.frozen hfrozen) i hi
  · have hslot : index x 0 ∈ kernelSlots := by
      refine List.mem_range'_1.mpr ⟨?_, Nat.mod_lt _ (by decide)⟩
      have hbase : kernelVirtBase = 18446603336221196288 := rfl
      unfold index kernelPml4First
      omega
    exact ⟨maps_of_top (hmatches _ hslot), maps_of_top (hmatches _ hslot).symm⟩

/-- A process that is made right after the slots are frozen. -/
theorem newRoot_boot : ∃ s t theirs, Reachable s ∧ s.newRoot = (some theirs, t) ∧
    t.kernelHalfMatches theirs = true := by
  obtain ⟨s, hfreeze, hfrozen, hlen⟩ :=
    prepopulate_of_frames kernelSlots (boot 257) (by simp [kernelSlots, boot])
  have hs : Reachable s := (reachable_boot (by decide)).next
    (show Run.Guarded Guard Step (boot 257) .freeze s from ⟨trivial, hfreeze⟩)
  cases hfree : s.free with
  | nil =>
    rw [hfree] at hlen
    exact absurd hlen (by simp [kernelSlots, boot])
  | cons theirs free =>
    have hnew : ∃ t, s.newRoot = (some theirs, t) := by
      unfold Machine.newRoot Machine.allocTable
      rw [hfree]
      exact ⟨_, rfl⟩
    obtain ⟨t, hnew⟩ := hnew
    exact ⟨s, t, theirs, hs, hnew,
      (hs.newRoot_sees (x := kernelVirtBase) hfrozen hnew (.start rfl) fun _ _ => rfl).1⟩

/-- **Dropping the lower half** gives back, once each, exactly the tables that are not used any
more. What the kernel half maps does not change, and no user address is mapped, nor can one be
again. -/
theorem Reachable.dropLowerHalf_frees (h : Reachable s) :
    ∃ freed, s.dropLowerHalf.free = freed ++ s.free ∧ freed.Nodup ∧
      (∀ f, f ∈ freed ↔ (∃ q d, Bounded q ∧ route layout s.mem s.root q d = some f) ∧
        ¬Reached layout s.dropLowerHalf.mem s.dropLowerHalf.root f) ∧
      (∀ {x page}, kernelVirtBase ≤ x → x < 2 ^ 64 →
        (s.dropLowerHalf.MapsTo x page ↔ s.MapsTo x page)) ∧
      ∀ {x}, x < 2 ^ 47 → (∀ page, ¬s.dropLowerHalf.MapsTo x page) ∧
        ∀ {pa flags mode r t}, s.dropLowerHalf.mapPageLocked x pa flags mode = some (r, t) →
          ∃ e, r = .error e := by
  obtain ⟨freed, hdrops⟩ := h.inv.1.dropsLowerHalf
  generalize s.dropLowerHalf = t at hdrops ⊢
  have hbase : kernelVirtBase = 18446603336221196288 := rfl
  refine ⟨freed, hdrops.free_eq, hdrops.nodup, fun f => hdrops.mem_freed_iff h.inv.1,
    fun {x page} hle hlt => ?_,
    fun {x} hlt => ⟨fun page hmaps => ?_, fun {pa flags mode r t'} hmap => ?_⟩⟩
  · refine (hdrops.maps_iff h.inv.1).trans (and_iff_right ?_)
    unfold index kernelPml4First
    omega
  · have hupper := ((hdrops.maps_iff h.inv.1).mp hmaps).1
    unfold index kernelPml4First at hupper
    omega
  · cases r with
    | error e => exact ⟨e, rfl⟩
    | ok value =>
      have hlower : index x 0 < kernelPml4First := by
        unfold index kernelPml4First
        omega
      unfold Machine.mapPageLocked at hmap
      rw [if_pos (show _ ∧ _ from ⟨hlower, hdrops.dropped⟩)] at hmap
      split_ifs at hmap <;> cases hmap

/-- An identity-mapped page, and the tables that it needs. -/
theorem dropLowerHalf_page :
    ∃ s freed, (boot 6).mapPage 0x5000 0x5000 .writable = some (.ok (), s) ∧
    s.dropLowerHalf.free = freed ++ s.free ∧ freed.Nodup ∧
      ∀ page, ¬s.dropLowerHalf.MapsTo 0x5000 page := by
  have hmap : ∃ s, (boot 6).mapPage 0x5000 0x5000 .writable = some (.ok (), s) := ⟨_, rfl⟩
  obtain ⟨s, hmap⟩ := hmap
  have hs : Reachable s := (reachable_boot (by decide)).next
    (show Run.Guarded Guard Step (boot 6) (.map 0x5000 0x5000 .writable) s from ⟨trivial, _, hmap⟩)
  obtain ⟨freed, hfree, hnodup, -, -, hlower⟩ := hs.dropLowerHalf_frees
  exact ⟨s, freed, hmap, hfree, hnodup, (hlower (by decide)).1⟩

/-- The links on the way to a page table are found by `table_from_entry`. -/
theorem Inv.tableFromEntry (h : Inv s) {p : ℕ → ℕ} {d : ℕ} {table next : Word}
    (hroute : route layout s.mem s.root p d = some table)
    (hlink : layout.decode d (s.mem table (p d)) = .link next) :
    Machine.tableFromEntry (s.mem table (p d)) = some next := by
  obtain ⟨hpresent, hlt, -, hmask⟩ := decode_eq_link.mp hlink
  have hframe : next &&& physMask4K = next := by
    rw [← hmask, BitVec.and_assoc, BitVec.and_self]
  have hhuge : has (s.mem table (p d)) huge = false := by
    rw [h.link hroute hlink, has_or, has_or, has_huge_of_frame hframe]
    decide
  unfold Machine.tableFromEntry
  rw [if_neg (by simp [hpresent, hhuge]), hmask]

/-- **Mapping and unmapping** a page gives back its physical address, and leaves every other page as
it was before both. -/
theorem Reachable.map_unmap {flags : PageFlags} {mode : Overwrite} (h : Reachable s)
    (hva : kernelVirtBase ≤ va)
    (hplain : flags.Plain) (hmap : s.mapPageLocked va pa flags mode = some (.ok (), s')) :
    ∃ s'', s'.unmapPage va = (.ok pa, s'') ∧ (∀ page, ¬s''.MapsTo va page) ∧
      ∀ {q page}, Bounded q → ¬Agree 4 q (index va) →
        (Maps layout s''.mem s''.root q page ↔ Maps layout s.mem s.root q page) := by
  have hpage := h.inv.1.mapPageLocked hmap
  obtain ⟨pt, hroute, hleaf, hsmall⟩ := hpage.small rfl
  have hhuge := hsmall hplain
  have hpresent : has (s'.mem pt (index va 3)) present = true := by
    by_contra hnone
    rw [decode_of_not_present (by simpa using hnone)] at hleaf
    contradiction
  obtain ⟨pd, hpd, hlink₂⟩ := route_succ_eq_some.mp hroute
  obtain ⟨pdpt, hpdpt, hlink₁⟩ := route_succ_eq_some.mp hpd
  obtain ⟨root, hroot, hlink₀⟩ := route_succ_eq_some.mp hpdpt
  obtain rfl := Option.some.inj hroot
  have hfound : ∃ physical s'', s'.unmapPage va = (.ok physical, s'') := by
    unfold Machine.unmapPage
    rw [if_neg (by rw [(mapPageLocked_ok hmap).1]; simpa using hva)]
    simp only [hpage.inv.tableFromEntry hroot hlink₀, hpage.inv.tableFromEntry hpdpt hlink₁,
      hpage.inv.tableFromEntry hpd hlink₂, Option.bind_eq_bind, Option.bind_some, hpresent, hhuge]
    exact ⟨_, _, rfl⟩
  obtain ⟨physical, s'', hunmap⟩ := hfound
  obtain ⟨e, he, -⟩ | ⟨physical', hok, hunmaps⟩ := hpage.inv.unmapPage hunmap
  · contradiction
  obtain rfl := Except.ok.inj hok
  obtain ⟨page, hmaps, hphysical⟩ := hunmaps.found
  obtain rfl := Maps.unique hmaps (hpage.mapped rfl fun _ _ => rfl)
  refine ⟨s'', hunmap.trans ?_, fun page => hunmaps.unmapped fun _ _ => rfl, fun hq hoff => ?_⟩
  · rw [← hphysical]
    rfl
  · exact (hunmaps.others hoff).trans (hpage.others hq hoff)

theorem map_unmap_boot : ∃ s s', (boot 6).mapPage (kernelVirtBase + 2 ^ 46) 0x9000 .writable =
    some (.ok (), s) ∧
    s.unmapPage (kernelVirtBase + 2 ^ 46) = (.ok 0x9000, s') ∧
      ∀ page, ¬s'.MapsTo (kernelVirtBase + 2 ^ 46) page := by
  have hmap : ∃ s, (boot 6).mapPage (kernelVirtBase + 2 ^ 46) 0x9000 .writable =
    some (.ok (), s) := ⟨_, rfl⟩
  obtain ⟨s, hmap⟩ := hmap
  obtain ⟨s', hunmap, hnone, -⟩ := (reachable_boot (by decide)).map_unmap (by decide)
    (show has PageFlags.writable.bits pat4K = false by decide) hmap
  exact ⟨s, s', hmap, hunmap, hnone⟩

/-- **Device registers** are mapped uncached at the address that is returned, as a whole, with their
pages and no others. -/
theorem Reachable.mapMmio_uncached {physical length address : ℕ} (h : Reachable s)
    (hmap : s.mapMmio physical length = some (.ok address, s')) :
    address = kernelVirtBase + physical ∧
      (∀ x, Canonical x → address / pageSize ≤ x / pageSize →
        x / pageSize ≤ (address + max length 1 - 1) / pageSize →
        s'.MapsTo x (PageFlags.mmio.page ((x - kernelVirtBase) / pageSize * pageSize))) ∧
      ∀ x page, Canonical x →
        x / pageSize < address / pageSize ∨ (address + max length 1 - 1) / pageSize < x / pageSize →
        (s'.MapsTo x page ↔ s.MapsTo x page) := by
  obtain ⟨n, -, hpages, hall⟩ := h.inv.1.mapMmio hmap
  obtain ⟨rfl, rfl⟩ := hall address rfl
  have hbase : kernelVirtBase = 18446603336221196288 := rfl
  have hfirst : (kernelVirtBase + (physical - physical % pageSize)) / pageSize =
      kernelVirtBase / pageSize + physical / pageSize := by
    unfold pageSize
    omega
  have hlastPage : (kernelVirtBase + physical + max length 1 - 1) / pageSize =
      kernelVirtBase / pageSize + (physical + max length 1 - 1) / pageSize := by
    unfold pageSize
    omega
  have hcount : mmioPages physical length =
      (physical + max length 1 - 1) / pageSize + 1 - physical / pageSize := by
    unfold mmioPages pageSize
    omega
  have hfirstPage : (kernelVirtBase + physical) / pageSize =
      kernelVirtBase / pageSize + physical / pageSize := by
    unfold pageSize
    omega
  rw [hlastPage, hfirstPage]
  refine ⟨rfl, fun x hx hle hlast => ?_, fun x page hx hout => hpages.others hx fun i hi => ?_⟩
  · have hpage : (x - kernelVirtBase) / pageSize = x / pageSize - kernelVirtBase / pageSize := by
      unfold pageSize
      omega
    have hmapped := hpages.mapped
      (i := (x - kernelVirtBase) / pageSize - physical / pageSize) (x := x)
      (by rw [hpage, hcount]; omega) hx (by rw [hfirst, hpage]; omega)
    have heq : physical - physical % pageSize +
        ((x - kernelVirtBase) / pageSize - physical / pageSize) * pageSize =
        (x - kernelVirtBase) / pageSize * pageSize := by
      unfold pageSize at *
      omega
    rwa [heq] at hmapped
  · rw [hfirst]
    omega

theorem mapMmio_boot : ∃ s, (boot 6).mapMmio 0xfee00010 16 =
    some (.ok (kernelVirtBase + 0xfee00010), s) ∧
    s.MapsTo (kernelVirtBase + 0xfee00010) (PageFlags.mmio.page
      ((kernelVirtBase + 0xfee00010 - kernelVirtBase) / pageSize * pageSize)) := by
  have hmap : ∃ s, (boot 6).mapMmio 0xfee00010 16 = some (.ok (kernelVirtBase + 0xfee00010), s) :=
    ⟨_, rfl⟩
  obtain ⟨s, hmap⟩ := hmap
  obtain ⟨-, hmapped, -⟩ := (reachable_boot (by decide)).mapMmio_uncached hmap
  exact ⟨s, hmap, hmapped _ (by unfold Canonical; decide) le_rfl (by decide)⟩

end Machine

/-! ## Walking -/

theorem walkFrom_ends (s : Machine) (va levels level : ℕ) (table : Word) (hsum : levels + level = 4)
    (hlevel : level ≤ 3) (hroute : route layout s.mem s.root (index va) level = some table) :
    ∃ d entry t, s.walkFrom va levels level table = some (d, entry) ∧
      route layout s.mem s.root (index va) d = some t ∧
      s.mem t (index va d) = entry ∧ ∀ g, decode d entry ≠ .link g := by
  induction levels generalizing level table with
  | zero => omega
  | succ levels ih =>
    rw [Machine.walkFrom]
    split_ifs with hend
    · refine ⟨level, _, table, rfl, hroute, rfl, fun g hlink => ?_⟩
      obtain ⟨hpresent, hlt, hleaf, -⟩ := decode_eq_link.mp hlink
      obtain hnone | ⟨h0, -, hhuge⟩ | h3 := hend
      · rw [hpresent] at hnone
        contradiction
      · exact hleaf ⟨h0, hhuge⟩
      · omega
    · rw [not_or, not_or, Bool.not_eq_false] at hend
      obtain ⟨hpresent, hleaf, h3⟩ := hend
      have hlt : level < 3 := by omega
      have hlink : decode level (s.mem table (index va level)) =
        .link (s.mem table (index va level) &&& physMask4K) :=
        link_of_present hlt (fun hnot => hleaf ⟨hnot.1, hlt, hnot.2⟩) hpresent
      exact ih (level + 1) _ (by omega) (by omega) (route_succ_eq_some.mpr ⟨table, hroute, hlink⟩)

/-- **`walk_entries`** ends at the entry that the processor uses: it is present if and only if the
address is mapped, and then it says what the address is mapped to. -/
theorem walk_maps (s : Machine) (hva : isCanonical va = true) :
    (s.isMapped va = true ↔ ∃ page, s.MapsTo va page) ∧ ∃ d entry, s.walk va = some (d, entry) ∧
      ∀ page, s.MapsTo va page ↔ ∃ value, decode d entry = .leaf value ∧
        value (index va) = page := by
  obtain ⟨d, entry, table, hends, hroute, rfl, hnolink⟩ :=
    walkFrom_ends s va 4 0 s.root rfl (by decide) rfl
  have hwalk : s.walk va = some (d, s.mem table (index va d)) := by
    rw [Machine.walk, hva, Bool.not_true, if_neg Bool.false_ne_true, hends]
  refine ⟨?_, d, s.mem table (index va d), hwalk, fun page => ?_⟩
  · rw [Machine.isMapped, hwalk, Option.any_some]
    cases hdecode : decode d (s.mem table (index va d)) with
    | absent =>
      refine iff_of_false (fun hpresent => ?_) fun hmaps => ?_
      · unfold decode at hdecode
        split_ifs at hdecode with hnone
        rw [hpresent] at hnone
        contradiction
      · obtain ⟨page, hpage⟩ := hmaps
        exact not_maps_of_absent hroute hdecode hpage
    | link g => exact absurd hdecode (hnolink g)
    | leaf value =>
      refine iff_of_true ?_ ⟨value (index va), (maps_of_leaf hroute hdecode).mpr rfl⟩
      by_contra hnone
      rw [decode_of_not_present (by simpa using hnone)] at hdecode
      contradiction
  · cases hdecode : decode d (s.mem table (index va d)) with
    | absent =>
      refine iff_of_false (not_maps_of_absent hroute hdecode) ?_
      rintro ⟨value, hvalue, -⟩
      contradiction
    | link g => exact absurd hdecode (hnolink g)
    | leaf value =>
      refine (maps_of_leaf hroute hdecode).trans ⟨fun hv => ⟨value, rfl, hv⟩, ?_⟩
      rintro ⟨value', hvalue, hv⟩
      rwa [Node.leaf.inj hvalue]

/-- The walk to a page below a leaf that was split. -/
theorem walk_maps_split :
    ∃ s s', (boot 6).mapRange 0 gigabyte true .usable true = some (.ok (), s) ∧
    s.mapPageLocked (kernelVirtBase + 5 * 4096) 0x9000 .mmio .replace = some (.ok (), s') ∧
    s'.isMapped (kernelVirtBase + 6 * 4096) = true ∧
    ∃ page, s'.MapsTo (kernelVirtBase + 6 * 4096) page := by
  have hmapped : ∃ s s', (boot 6).mapRange 0 gigabyte true .usable true = some (.ok (), s) ∧
      s.mapPageLocked (kernelVirtBase + 5 * 4096) 0x9000 .mmio .replace = some (.ok (), s') ∧
      s'.isMapped (kernelVirtBase + 6 * 4096) = true := ⟨_, _, rfl, rfl, rfl⟩
  obtain ⟨s, s', hrange, hmap, hmapped⟩ := hmapped
  exact ⟨s, s', hrange, hmap, hmapped, (walk_maps s' (by decide)).1.mp hmapped⟩

end SaeOS.KernelTables
