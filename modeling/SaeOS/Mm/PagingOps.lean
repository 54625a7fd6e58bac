import Mathlib.Data.List.Nodup
import SaeOS.Mm.PagingTables

/-!
# Operations on one address space

One lemma per operation of `AddressSpace`: what it does to the leaf entries and the lists of
mappings, and which frames the space has references to before and after.
-/

namespace SaeOS.Paging

open Frame RadixTree

/-- The page addresses that user mappings may have. -/
structure UserPage (a : ℕ) : Prop where
  aligned : a % pageSize = 0
  lower : a < lowerHalfEnd

instance (a : ℕ) : Decidable (UserPage a) :=
  decidable_of_iff (a % pageSize = 0 ∧ a < lowerHalfEnd) ⟨fun h => ⟨h.1, h.2⟩, fun h => ⟨h.1, h.2⟩⟩

/-- Distinct pages have distinct paths through the tables. -/
theorem path_eq_iff {a b : ℕ} (ha : UserPage a) (hb : UserPage b) :
    a / pageSize % tableSlots ^ 4 = b / pageSize % tableSlots ^ 4 ↔ a = b := by
  obtain ⟨haligned, hlower⟩ := ha
  obtain ⟨hbligned, hblower⟩ := hb
  unfold pageSize tableSlots lowerHalfEnd at *
  omega

theorem validateUserMapping_ok {a f : ℕ} {flags : PageFlags}
    (h : validateUserMapping a f flags = .ok ()) : UserPage a := by
  unfold validateUserMapping at h
  split_ifs at h with haligned hlower
  push Not at haligned hlower
  exact ⟨haligned.1, hlower⟩

namespace AddressSpace

variable {s s' : AddressSpace} {pool pool' : Pool} {a b f : ℕ} {flags : PageFlags}

/-- All mappings of a space. -/
def mappings (s : AddressSpace) : List OwnedMapping :=
  s.owned ++ s.devices

/-- The frames a space has references to. -/
def refs (s : AddressSpace) : List ℕ :=
  s.tables ++ s.ownedFrames

/-- The lists of mappings say what the page tables hold. -/
structure WellFormed (s : AddressSpace) : Prop where
  nodup : (s.mappings.map OwnedMapping.virtualAddress).Nodup
  user : ∀ m ∈ s.mappings, UserPage m.virtualAddress
  mapped : ∀ m ∈ s.mappings, ∃ entry, s.leaf m.virtualAddress = some entry ∧ entry.frame = m.frame
  listed : ∀ a, UserPage a → s.leaf a ≠ none → ∃ m ∈ s.mappings, m.virtualAddress = a

/-! ## Leaf entries -/

theorem leaf_setLeaf (ha : UserPage a) (hb : UserPage b) (entry : Entry) :
    (s.setLeaf a entry).leaf b = if b = a then (s.leaf a).map fun _ => entry else s.leaf b := by
  unfold setLeaf leaf
  rw [Tree.lookup_modify]
  simp only [path_eq_iff hb ha]

@[simp]
theorem tables_setLeaf (s : AddressSpace) (a : ℕ) (entry : Entry) :
    (s.setLeaf a entry).tables = s.tables :=
  Tree.blocks_modify _ _ _ _ _

@[simp]
theorem owned_setLeaf (s : AddressSpace) (a : ℕ) (entry : Entry) :
    (s.setLeaf a entry).owned = s.owned := rfl

/-- Page-table edits by their effect on the leaf entry of one page. -/
structure LeafSet (s s' : AddressSpace) (a : ℕ) (o : Option Entry) : Prop where
  here : s'.leaf a = o
  elsewhere : ∀ b, UserPage b → b ≠ a → s'.leaf b = s.leaf b

theorem LeafSet.leaf_eq {o : Option Entry} (h : LeafSet s s' a o) (hb : UserPage b) :
    s'.leaf b = if b = a then o else s.leaf b := by
  split_ifs with heq
  · rw [heq, h.here]
  · exact h.elsewhere b hb heq

theorem setLeaf_leafSet {old : Entry} (ha : UserPage a) (hold : s.leaf a = some old)
    (entry : Entry) : LeafSet s (s.setLeaf a entry) a (some entry) where
  here := by rw [leaf_setLeaf ha ha, if_pos rfl, hold, Option.map_some]
  elsewhere b hb hne := by rw [leaf_setLeaf ha hb, if_neg hne]

/-! ## Creating and dropping -/

theorem new_ok (h : new pool = (.ok s, pool')) :
    Exchange pool pool' [] s.refs ∧ (∀ a, s.leaf a = none) ∧ s.owned = [] ∧ s.devices = [] := by
  unfold new at h
  split at h
  · cases h
  · rename_i root pool₁ halloc
    cases h
    refine ⟨?_, fun a => Tree.lookup_empty _ _, rfl, rfl⟩
    have hrefs : refs ⟨.ofTable (Table.empty root), [], []⟩ = [root] := by
      unfold refs tables ownedFrames
      rw [blocks_empty]
      rfl
    rw [hrefs]
    exact (allocFrameZeroed_some halloc).1

theorem new_error {error : AddressSpaceError} (h : new pool = (.error error, pool')) :
    Exchange pool pool' [] [] ∧ error = .outOfFrames := by
  unfold new at h
  split at h
  · rename_i pool₁ halloc
    cases h
    exact ⟨allocFrameZeroed_none halloc, rfl⟩
  · cases h

/-- Dropping a space gives back every reference it has. -/
theorem drop_exchange (h : pool.Holds s.refs) : Exchange pool (s.drop pool) s.refs [] := by
  have hfrees : s.drop pool =
      pool.freeAll (s.root.table.blocksBelow tableSlots (Tree.blocks tableSlots 3) ++
        (s.ownedFrames ++ [s.root.table.block])) := by
    unfold drop Pool.freeAll
    rw [List.foldl_append, List.foldl_append]
    rfl
  have hperm : s.refs.Perm (s.root.table.blocksBelow tableSlots (Tree.blocks tableSlots 3) ++
      (s.ownedFrames ++ [s.root.table.block])) := by
    unfold refs tables
    rw [Tree.blocks, List.append_assoc]
    exact List.perm_append_comm.append_left _
  rw [hfrees]
  exact (freeAll_exchange (h.congr hperm)).congr hperm.symm (List.Perm.refl _)

/-! ## Mapping -/

/-- Mapping a page in the root table, seen from the space. -/
theorem mapPage_root {root : Tree Entry 4} {entry : Entry} (ha : UserPage a)
    (h : mapPage 3 s.root (a / pageSize) entry pool = (.ok root, pool')) :
    s.leaf a = none ∧ Exchange pool pool' s.tables (tables { s with root }) ∧
      LeafSet s { s with root } a (some entry) := by
  obtain ⟨hnone, hexchange, hlookup⟩ := mapPage_ok h
  refine ⟨hnone, hexchange, ⟨?_, fun b hb hne => ?_⟩⟩
  · exact (hlookup _).trans (if_pos rfl)
  · refine (hlookup _).trans (if_neg ?_)
    rw [path_eq_iff hb ha]
    exact hne

/-- `map` sets the leaf of an unmapped page. -/
theorem map_ok (h : s.map a f flags pool = (.ok (), pool', s')) :
    validateUserMapping a f flags = .ok () ∧ s.leaf a = none ∧
      LeafSet s s' a (some { frame := f, flags }) ∧ Exchange pool pool' s.tables s'.tables ∧
      s'.owned = s.owned ∧ s'.devices = s.devices := by
  unfold map at h
  split at h
  · cases h
  · rename_i hvalid
    have ha := validateUserMapping_ok hvalid
    split at h
    · cases h
    · rename_i root pool₁ hmap
      cases h
      obtain ⟨hnone, hexchange, hleaf⟩ := mapPage_root ha hmap
      exact ⟨hvalid, hnone, hleaf, hexchange, rfl, rfl⟩

/-- Why a page could not be mapped: no memory, or what the address, flags and table say. -/
def MapError (s : AddressSpace) (a f : ℕ) (flags : PageFlags) (error : AddressSpaceError) : Prop :=
  error = .outOfFrames ∨ validateUserMapping a f flags = .error error ∨
    validateUserMapping a f flags = .ok () ∧ error = .alreadyMapped ∧ s.leaf a ≠ none

theorem map_error {error : AddressSpaceError} (h : s.map a f flags pool = (.error error, pool', s')) :
    s' = s ∧ Exchange pool pool' [] [] ∧ s.MapError a f flags error := by
  unfold map at h
  split at h
  · rename_i error' hinvalid
    cases h
    exact ⟨rfl, Exchange.refl _ _, Or.inr (Or.inl hinvalid)⟩
  · rename_i hvalid
    split at h
    · rename_i error' pool₁ hmap
      cases h
      obtain ⟨hexchange, ⟨hframes, -⟩ | ⟨halready, hmapped⟩⟩ := mapPage_error hmap
      · exact ⟨rfl, hexchange, Or.inl hframes⟩
      · exact ⟨rfl, hexchange, Or.inr (Or.inr ⟨hvalid, halready, hmapped⟩)⟩
    · cases h

theorem mapOwned_ok (h : s.mapOwned a f flags pool = (.ok (), pool', s')) :
    validateUserMapping a f flags = .ok () ∧ s.leaf a = none ∧
      LeafSet s s' a (some { frame := f, flags }) ∧ Exchange pool pool' s.tables s'.tables ∧
      s'.owned = s.owned ++ [⟨a, f⟩] ∧ s'.devices = s.devices := by
  unfold mapOwned at h
  split at h
  · cases h
  · rename_i pool₁ hreserve
    split at h
    · cases h
    · rename_i pool₂ s₁ hmap
      cases h
      obtain ⟨hvalid, hnone, hleaf, hexchange, howned, hdevices⟩ := map_ok hmap
      refine ⟨hvalid, hnone, ⟨hleaf.here, hleaf.elsewhere⟩, ?_, by rw [← howned], hdevices⟩
      exact (tryReserve_exchange hreserve).trans hexchange

theorem mapOwned_error {error : AddressSpaceError}
    (h : s.mapOwned a f flags pool = (.error error, pool', s')) :
    s' = s ∧ Exchange pool pool' [] [] ∧ s.MapError a f flags error := by
  unfold mapOwned at h
  split at h
  · rename_i pool₁ hreserve
    cases h
    exact ⟨rfl, tryReserve_exchange hreserve, Or.inl rfl⟩
  · rename_i pool₁ hreserve
    split at h
    · rename_i error' pool₂ s₁ hmap
      cases h
      obtain ⟨hsame, hexchange, hreason⟩ := map_error hmap
      exact ⟨hsame, (tryReserve_exchange hreserve).trans hexchange, hreason⟩
    · cases h

/-! ## Unmapping -/

/-- The position of a page is that of its mapping. -/
theorem position_some {l : List OwnedMapping} {i : ℕ} (h : position a l = some i) :
    ∃ m, l[i]? = some m ∧ m.virtualAddress = a ∧ (m :: Vec.swapRemove l i).Perm l := by
  unfold position at h
  obtain ⟨hi, hm, -⟩ := List.findIdx?_eq_some_iff_getElem.mp h
  have hget : l[i]? = some l[i] := List.getElem?_eq_getElem hi
  exact ⟨l[i], hget, by simpa using hm, Vec.perm_swapRemove hget⟩

theorem position_none {l : List OwnedMapping} (h : position a l = none) :
    ∀ m ∈ l, m.virtualAddress ≠ a := by
  intro m hm heq
  have := List.findIdx?_eq_none_iff.mp h m hm
  simp [heq] at this

/-- The mapping that `unmap_mapping` took off a list, and the ownership it reports. -/
inductive Unlisted (s s' : AddressSpace) (m : OwnedMapping) : MappingOwnership → Prop
  | owned (howned : (m :: s'.owned).Perm s.owned) (hdevices : s'.devices = s.devices) :
    Unlisted s s' m .owned
  | borrowed (hdevices : (m :: s'.devices).Perm s.devices) (howned : s'.owned = s.owned) :
    Unlisted s s' m .borrowed

theorem Unlisted.perm {m : OwnedMapping} {ownership : MappingOwnership}
    (h : Unlisted s s' m ownership) : s.mappings.Perm (m :: s'.mappings) := by
  unfold mappings
  cases h with
  | owned howned hdevices =>
    rw [hdevices]
    exact (howned.append_right _).symm
  | borrowed hdevices howned =>
    rw [howned]
    exact (hdevices.symm.append_left _).trans List.perm_middle

/-- Only the lists matter. -/
theorem Unlisted.of_root {m : OwnedMapping} {ownership : MappingOwnership} {root : Tree Entry 4}
    (h : Unlisted { s with root } s' m ownership) : Unlisted s s' m ownership := by
  cases h with
  | owned howned hdevices => exact .owned howned hdevices
  | borrowed hdevices howned => exact .borrowed hdevices howned

/-- A listed mapping is taken off its list, and its ownership is that of the list. -/
theorem removeOwned_unlisted (hnodup : (s.mappings.map OwnedMapping.virtualAddress).Nodup)
    (hlisted : (⟨a, f⟩ : OwnedMapping) ∈ s.mappings) :
    Unlisted s (s.removeOwned a f).2 ⟨a, f⟩ (s.removeOwned a f).1 := by
  -- a mapping of `a` is the listed one
  have hunique : ∀ m ∈ s.mappings, m.virtualAddress = a → m = ⟨a, f⟩ := fun m hm ha =>
    List.inj_on_of_nodup_map hnodup hm hlisted ha
  unfold removeOwned
  split
  · rename_i i hpos
    obtain ⟨m, hget, hm, hperm⟩ := position_some hpos
    have hmem : m ∈ s.devices := List.mem_of_getElem? hget
    rw [hunique m (List.mem_append_right _ hmem) hm] at hperm
    exact .borrowed hperm rfl
  · rename_i hdevice
    have howned : (⟨a, f⟩ : OwnedMapping) ∈ s.owned := by
      rcases List.mem_append.mp hlisted with hin | hin
      · exact hin
      · exact absurd rfl (position_none hdevice _ hin)
    split
    · rename_i i hpos
      obtain ⟨m, hget, hm, hperm⟩ := position_some hpos
      have hmem : m ∈ s.owned := List.mem_of_getElem? hget
      rw [hunique m (List.mem_append_left _ hmem) hm] at hperm hget
      simp only [hget, if_true]
      exact .owned hperm rfl
    · rename_i hnone
      exact absurd rfl (position_none hnone _ howned)

@[simp]
theorem removeOwned_root (s : AddressSpace) (a f : ℕ) : (s.removeOwned a f).2.root = s.root := by
  unfold removeOwned
  split
  · rfl
  · split <;> rfl

theorem pageEntryInner_ok {entry : Entry} (h : s.pageEntryInner a = .ok entry) :
    UserPage a ∧ s.leaf a = some entry := by
  unfold pageEntryInner at h
  split_ifs at h with haligned hlower
  push Not at haligned hlower
  split at h
  · cases h
  · rename_i entry' hleaf
    cases h
    exact ⟨⟨haligned, hlower⟩, hleaf⟩

theorem pageEntryInner_of_leaf {entry : Entry} (ha : UserPage a) (h : s.leaf a = some entry) :
    s.pageEntryInner a = .ok entry := by
  unfold pageEntryInner
  rw [if_neg (by simp [ha.aligned]), if_neg (by simpa using ha.lower), h]

/-- `unmap_mapping` clears the leaf of a mapped page and takes its mapping off the list. -/
theorem unmapMapping_ok {u : UnmappedMapping} (hwf : s.WellFormed) (hold : pool.Holds s.tables)
    (h : s.unmapMapping a pool = (.ok u, pool', s')) :
    UserPage a ∧ (∃ entry, s.leaf a = some entry ∧ entry.frame = u.frame) ∧
      LeafSet s s' a none ∧ Exchange pool pool' s.tables s'.tables ∧
      Unlisted s s' ⟨a, u.frame⟩ u.ownership := by
  unfold unmapMapping at h
  split at h
  · cases h
  · rename_i entry hentry
    obtain ⟨ha, hleaf⟩ := pageEntryInner_ok hentry
    split at h
    · cases h
    · split at h
      · cases h
      · rename_i entry' root pool₁ hunmap
        simp only [Prod.mk.injEq, Except.ok.injEq] at h
        obtain ⟨rfl, rfl, rfl⟩ := h
        obtain ⟨hsome, hexchange, hlookup⟩ := unmapPage_ok hunmap hold
        have hsame : entry' = entry := Option.some.inj (hsome.symm.trans hleaf)
        subst hsame
        have hlisted : (⟨a, entry'.frame⟩ : OwnedMapping) ∈ s.mappings := by
          obtain ⟨m, hm, hma⟩ := hwf.listed a ha (by simp [hleaf])
          obtain ⟨e, he, hframe⟩ := hwf.mapped m hm
          rw [hma, hleaf] at he
          cases he
          have hm' : m = ⟨a, entry'.frame⟩ := by
            rw [← hma, hframe]
          exact hm' ▸ hm
        have hun := removeOwned_unlisted (s := { s with root }) hwf.nodup hlisted
        refine ⟨ha, ⟨entry', hleaf, rfl⟩, ⟨?_, fun b hb hne => ?_⟩, ?_, ?_⟩
        · unfold leaf
          rw [removeOwned_root, hlookup, if_pos rfl]
        · unfold leaf
          rw [removeOwned_root, hlookup, if_neg]
          rw [path_eq_iff hb ha]
          exact hne
        · unfold tables
          rw [removeOwned_root]
          exact hexchange
        · exact hun.of_root

/-- Only what is not mapped cannot be unmapped. -/
theorem unmapMapping_error {error : AddressSpaceError}
    (h : s.unmapMapping a pool = (.error error, pool', s')) :
    s' = s ∧ pool' = pool ∧ s.pageEntryInner a = .error error := by
  unfold unmapMapping at h
  split at h
  · rename_i error' hentry
    cases h
    exact ⟨rfl, rfl, hentry⟩
  · rename_i entry hentry
    obtain ⟨ha, hleaf⟩ := pageEntryInner_ok hentry
    have hvalid : validateUserMapping a 0 .userRead = .ok () := by
      unfold validateUserMapping
      rw [if_neg (by simp [ha.aligned]), if_neg (by simpa using ha.lower)]
      rfl
    rw [hvalid] at h
    simp only at h
    split at h
    · rename_i error' pool₁ hunmap
      have hnone := (unmapPage_error hunmap).2
      unfold leaf at hleaf
      rw [hnone] at hleaf
      cases hleaf
    · cases h

/-! ## Well-formed spaces -/

/-- Nothing is mapped in a new space. -/
theorem WellFormed.of_empty (hleaf : ∀ a, s.leaf a = none) (hmappings : s.mappings = []) :
    s.WellFormed where
  nodup := by simp [hmappings]
  user := by simp [hmappings]
  mapped := by simp [hmappings]
  listed a _ h := absurd (hleaf a) h

/-- A page and its mapping are added. -/
theorem WellFormed.insert {entry : Entry} (hwf : s.WellFormed) (ha : UserPage a)
    (hnone : s.leaf a = none) (hleaf : LeafSet s s' a (some entry))
    (hperm : s'.mappings.Perm (⟨a, entry.frame⟩ :: s.mappings)) : s'.WellFormed := by
  have hnew : ∀ m ∈ s.mappings, m.virtualAddress ≠ a := by
    intro m hm heq
    obtain ⟨e, he, -⟩ := hwf.mapped m hm
    rw [heq, hnone] at he
    cases he
  refine ⟨?_, fun m hm => ?_, fun m hm => ?_, fun b hb hmapped => ?_⟩
  · rw [(hperm.map _).nodup_iff, List.map_cons, List.nodup_cons]
    refine ⟨fun hmem => ?_, hwf.nodup⟩
    obtain ⟨m, hm, heq⟩ := List.mem_map.mp hmem
    exact hnew m hm heq
  · rcases List.mem_cons.mp (hperm.mem_iff.mp hm) with rfl | hin
    · exact ha
    · exact hwf.user m hin
  · rcases List.mem_cons.mp (hperm.mem_iff.mp hm) with rfl | hin
    · exact ⟨entry, hleaf.here, rfl⟩
    · rw [hleaf.elsewhere _ (hwf.user m hin) (hnew m hin)]
      exact hwf.mapped m hin
  · by_cases heq : b = a
    · exact ⟨⟨a, entry.frame⟩, hperm.mem_iff.mpr List.mem_cons_self, heq.symm⟩
    · rw [hleaf.elsewhere b hb heq] at hmapped
      obtain ⟨m, hm, hmb⟩ := hwf.listed b hb hmapped
      exact ⟨m, hperm.mem_iff.mpr (List.mem_cons_of_mem _ hm), hmb⟩

/-- A page and its mapping are taken away. -/
theorem WellFormed.erase {m₀ : OwnedMapping} (hwf : s.WellFormed)
    (hleaf : LeafSet s s' m₀.virtualAddress none) (hperm : s.mappings.Perm (m₀ :: s'.mappings)) :
    s'.WellFormed := by
  have hnodup := hwf.nodup
  rw [(hperm.map _).nodup_iff, List.map_cons, List.nodup_cons] at hnodup
  have hkept : ∀ m ∈ s'.mappings, m ∈ s.mappings := fun m hm =>
    hperm.mem_iff.mpr (List.mem_cons_of_mem _ hm)
  refine ⟨hnodup.2, fun m hm => hwf.user m (hkept m hm), fun m hm => ?_, fun b hb hmapped => ?_⟩
  · have hne : m.virtualAddress ≠ m₀.virtualAddress := fun heq =>
      hnodup.1 (heq ▸ List.mem_map_of_mem hm)
    rw [hleaf.elsewhere _ (hwf.user m (hkept m hm)) hne]
    exact hwf.mapped m (hkept m hm)
  · have hne : b ≠ m₀.virtualAddress := fun heq => hmapped (heq ▸ hleaf.here)
    rw [hleaf.elsewhere b hb hne] at hmapped
    obtain ⟨m, hm, hmb⟩ := hwf.listed b hb hmapped
    rcases List.mem_cons.mp (hperm.mem_iff.mp hm) with rfl | hin
    · exact absurd hmb.symm hne
    · exact ⟨m, hin, hmb⟩

/-- The entry of a mapped page changes, and its frame on the list along with it. -/
theorem WellFormed.replace {entry : Entry} {rest : List OwnedMapping} (hwf : s.WellFormed)
    (hleaf : LeafSet s s' a (some entry)) (hperm : s.mappings.Perm (⟨a, f⟩ :: rest))
    (hperm' : s'.mappings.Perm (⟨a, entry.frame⟩ :: rest)) : s'.WellFormed := by
  have hnodup := hwf.nodup
  rw [(hperm.map _).nodup_iff, List.map_cons] at hnodup
  have hrest : ∀ m ∈ rest, m ∈ s.mappings ∧ m.virtualAddress ≠ a := fun m hm =>
    ⟨hperm.mem_iff.mpr (List.mem_cons_of_mem _ hm),
      fun heq => (List.nodup_cons.mp hnodup).1 (List.mem_map.mpr ⟨m, hm, heq⟩)⟩
  have ha : UserPage a := hwf.user ⟨a, f⟩ (hperm.mem_iff.mpr List.mem_cons_self)
  refine ⟨?_, fun m hm => ?_, fun m hm => ?_, fun b hb hmapped => ?_⟩
  · rw [(hperm'.map _).nodup_iff, List.map_cons]
    exact hnodup
  · rcases List.mem_cons.mp (hperm'.mem_iff.mp hm) with rfl | hin
    · exact ha
    · exact hwf.user m (hrest m hin).1
  · rcases List.mem_cons.mp (hperm'.mem_iff.mp hm) with rfl | hin
    · exact ⟨entry, hleaf.here, rfl⟩
    · rw [hleaf.elsewhere _ (hwf.user m (hrest m hin).1) (hrest m hin).2]
      exact hwf.mapped m (hrest m hin).1
  · by_cases heq : b = a
    · exact ⟨⟨a, entry.frame⟩, hperm'.mem_iff.mpr List.mem_cons_self, heq.symm⟩
    · rw [hleaf.elsewhere b hb heq] at hmapped
      obtain ⟨m, hm, hmb⟩ := hwf.listed b hb hmapped
      rcases List.mem_cons.mp (hperm.mem_iff.mp hm) with rfl | hin
      · exact absurd hmb.symm heq
      · exact ⟨m, hperm'.mem_iff.mpr (List.mem_cons_of_mem _ hin), hmb⟩

/-- The mapping of a mapped page. -/
theorem WellFormed.mem_mappings {entry : Entry} (hwf : s.WellFormed) (ha : UserPage a)
    (h : s.leaf a = some entry) : (⟨a, entry.frame⟩ : OwnedMapping) ∈ s.mappings := by
  obtain ⟨⟨b, g⟩, hm, rfl⟩ := hwf.listed a ha (by simp [h])
  obtain ⟨e, he, rfl⟩ := hwf.mapped _ hm
  rw [show e = entry from Option.some.inj (he.symm.trans h)] at hm
  exact hm

/-- Writing to a leaf slot without moving the page. -/
theorem WellFormed.setLeaf {entry : Entry} (hwf : s.WellFormed) (ha : UserPage a)
    (h : s.leaf a = some entry) {entry' : Entry} (hframe : entry'.frame = entry.frame) :
    (s.setLeaf a entry').WellFormed := by
  obtain ⟨l, r, hsplit⟩ := List.append_of_mem (hwf.mem_mappings ha h)
  have hperm : s.mappings.Perm (⟨a, entry.frame⟩ :: (l ++ r)) := by
    rw [hsplit]
    exact List.perm_middle
  refine hwf.replace (setLeaf_leafSet ha h entry') hperm ?_
  rw [hframe]
  exact hperm

/-! ## Permissions and copy-on-write -/

theorem setLeafFlags_of_leaf {entry : Entry} (h : s.leaf a = some entry) :
    s.setLeafFlags a flags pool =
      (.ok (), s.setLeaf a (entry.setFlags flags (pool.shared entry.frame))) := by
  unfold setLeafFlags
  rw [h]

theorem setLeafFlags_of_none (h : s.leaf a = none) :
    s.setLeafFlags a flags pool = (.error .notMapped, s) := by
  unfold setLeafFlags
  rw [h]

theorem userPage_pageOf (ha : a < lowerHalfEnd) : UserPage (pageOf a) := by
  unfold pageOf pageSize
  refine ⟨?_, ?_⟩
  · unfold pageSize
    omega
  · omega

/-- What `resolve_cow` can do. -/
inductive CowStep (s : AddressSpace) (page : ℕ) (pool : Pool) :
    CowResolution × Pool × AddressSpace → Prop
  | notCow (h : ∀ entry, s.leaf page = some entry → entry.copyOnWrite = false) :
    CowStep s page pool (.notCow, pool, s)
  | inPlace (entry : Entry) (hleaf : s.leaf page = some entry) (hcow : entry.copyOnWrite = true)
    (hshared : pool.shared entry.frame = false) :
    CowStep s page pool (.resolved, pool, s.setLeaf page (entry.resolve entry.frame))
  | copied (entry : Entry) (copy : ℕ) (pool' : Pool) (hleaf : s.leaf page = some entry)
    (hcow : entry.copyOnWrite = true) (hshared : pool.shared entry.frame = true)
    (hfree : pool.refcount copy = 0) (hexchange : Exchange pool pool' [entry.frame] [copy])
    (hbytes : pool'.bytes copy = pool.bytes entry.frame) :
    CowStep s page pool (.resolved, pool',
      { s.setLeaf page (entry.resolve copy) with owned := setFrame page copy s.owned })
  | outOfMemory (entry : Entry) (pool' : Pool) (hleaf : s.leaf page = some entry)
    (hcow : entry.copyOnWrite = true) (hexchange : Exchange pool pool' [] []) :
    CowStep s page pool (.outOfMemory, pool', s)

theorem shared_iff : pool.shared f = true ↔ pool.tracked f = true ∧ 1 < pool.refcount f := by
  simp [Pool.shared]

/-- Copying a shared page exchanges its frame for the copy. -/
theorem copy_exchange {copy : ℕ} (hshared : pool.shared f = true)
    (h : pool.allocFrame = (some copy, pool')) :
    Exchange pool ((pool'.fill copy (pool'.bytes f)).freeFrame f) [f] [copy] ∧
      ((pool'.fill copy (pool'.bytes f)).freeFrame f).bytes copy = pool.bytes f := by
  obtain ⟨halloc, hzero, -⟩ := allocFrame_some h
  obtain ⟨htracked, hcount⟩ := shared_iff.mp hshared
  have hone : pool'.refcount copy ≤ [copy, f].count copy := by
    have := halloc.count copy
    simp only [hzero, List.count_nil, List.count_cons_self] at this ⊢
    omega
  have hfilled : Exchange pool (pool'.fill copy (pool'.bytes f)) [f] [copy, f] :=
    (halloc.frame [f]).trans (fill_exchange hone)
  have hheld : pool.Holds [f] := by
    intro g
    rw [count_singleton_eq]
    refine ⟨?_, fun hg => List.mem_singleton.mp hg ▸ htracked⟩
    split_ifs with heq
    · rw [heq]
      omega
    · exact Nat.zero_le _
  have hfreed := freeFrame_exchange ((hfilled.holds_self hheld).of_append_right (a := [copy]))
  refine ⟨?_, ?_⟩
  · exact hfilled.trans ((hfreed.frame [copy]).congr (List.Perm.swap _ _ _) (List.Perm.refl _))
  · rw [Pool.freeFrame_bytes, Pool.fill_bytes_self]
    exact halloc.bytes f (by simp only [List.count_nil]; omega)

theorem resolveCow_step (s : AddressSpace) (a : ℕ) (pool : Pool) :
    CowStep s (pageOf a) pool (s.resolveCow a pool) := by
  unfold resolveCow
  dsimp only
  split
  · rename_i hleaf
    refine .notCow fun entry h => ?_
    rw [hleaf] at h
    cases h
  · rename_i entry hleaf
    split_ifs with hcow hshared
    · refine .notCow fun entry' h => ?_
      rw [hleaf] at h
      cases h
      exact hcow
    · exact .inPlace entry hleaf (by simpa using hcow) hshared
    · have hcow' : entry.copyOnWrite = true := by simpa using hcow
      have hshared' : pool.shared entry.frame = true := by simpa using hshared
      split
      · rename_i pool₁ halloc
        exact .outOfMemory entry pool₁ hleaf hcow' (allocFrame_none halloc)
      · rename_i copy pool₁ halloc
        obtain ⟨hexchange, hbytes⟩ := copy_exchange hshared' halloc
        exact .copied entry copy _ hleaf hcow' hshared' (allocFrame_some halloc).2.1 hexchange hbytes

/-- `setFrame` replaces the frame of the one mapping of its page. -/
theorem setFrame_perm {l : List OwnedMapping} {page g : ℕ}
    (hnodup : (l.map OwnedMapping.virtualAddress).Nodup) (h : (⟨page, f⟩ : OwnedMapping) ∈ l) :
    ∃ rest, l.Perm (⟨page, f⟩ :: rest) ∧ (setFrame page g l).Perm (⟨page, g⟩ :: rest) := by
  induction l with
  | nil => cases h
  | cons m l ih =>
    rw [List.map_cons, List.nodup_cons] at hnodup
    unfold setFrame
    split_ifs with hm
    · have hhead : m = ⟨page, f⟩ := by
        rcases List.mem_cons.mp h with heq | hin
        · exact heq.symm
        · exact absurd (List.mem_map.mpr ⟨_, hin, hm.symm⟩) hnodup.1
      refine ⟨l, by rw [hhead], ?_⟩
      rw [hhead]
    · have hin : (⟨page, f⟩ : OwnedMapping) ∈ l := by
        rcases List.mem_cons.mp h with heq | hin
        · exact absurd (congrArg OwnedMapping.virtualAddress heq).symm hm
        · exact hin
      obtain ⟨rest, hold, hnew⟩ := ih hnodup.2 hin
      refine ⟨m :: rest, ?_, ?_⟩
      · exact (hold.cons m).trans (List.Perm.swap _ _ _)
      · exact (hnew.cons m).trans (List.Perm.swap _ _ _)

end AddressSpace

end SaeOS.Paging
