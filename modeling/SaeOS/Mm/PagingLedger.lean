import SaeOS.Mm.PagingFork

/-!
# Who refers to which frame

The references of several address spaces to the frames of one pool. `Ledger pool spaces` says that
every reference is counted, that no table frame is anything else, and that no space owns a frame
twice. `Edit pool pool' s s'` is what every operation but `fork_cow` does to the references of the
space it works on; edits compose, and an edit of one space keeps the ledger of all of them.
-/

namespace SaeOS.Paging

open Frame RadixTree

namespace AddressSpace

variable {s s' s'' : AddressSpace} {pool pool' pool'' : Pool} {a f : ℕ} {flags : PageFlags}

/-- The references of a space were exchanged, and its new table frames are nobody else's. -/
structure Edit (pool pool' : Pool) (s s' : AddressSpace) : Prop where
  exchange : Exchange pool pool' s.refs s'.refs
  tables : ∀ f ∈ s'.tables, f ∈ s.tables ∨ pool.refcount f = s.refs.count f

namespace Edit

theorem refl (pool : Pool) (s : AddressSpace) : Edit pool pool s s :=
  ⟨Exchange.refl _ _, fun _ hf => Or.inl hf⟩

theorem trans (h : Edit pool pool' s s') (h' : Edit pool' pool'' s' s'') :
    Edit pool pool'' s s'' where
  exchange := h.exchange.trans h'.exchange
  tables f hf := by
    rcases h'.tables f hf with hin | hown
    · exact h.tables f hin
    · have := h.exchange.count f
      exact Or.inr (by omega)

/-- Nothing was allocated or freed, and the space refers to what it did before. -/
theorem of_keep (h : Exchange pool pool' [] []) (htables : s'.tables = s.tables)
    (howned : s'.ownedFrames = s.ownedFrames) : Edit pool pool' s s' where
  exchange := by
    unfold refs
    rw [htables, howned]
    exact h.keep _
  tables f hf := Or.inl (htables ▸ hf)

/-- Owned frames in `gone` were exchanged for those in `new`. -/
theorem of_owned {gone new rest : List ℕ} (h : Exchange pool pool' gone new)
    (howned : s.ownedFrames.Perm (gone ++ rest)) (howned' : s'.ownedFrames.Perm (new ++ rest))
    (htables : s'.tables = s.tables) : Edit pool pool' s s' where
  exchange := by
    unfold refs
    rw [htables]
    refine (h.frame (rest ++ s.tables)).congr ?_ ?_
    · rw [← List.append_assoc]
      exact (howned.symm.append_right _).trans List.perm_append_comm
    · rw [← List.append_assoc]
      exact (howned'.symm.append_right _).trans List.perm_append_comm
  tables f hf := Or.inl (htables ▸ hf)

end Edit

/-! ## Backing a page with a new frame, and taking it back -/

/-- Map a page to a newly allocated frame with the given contents, as `map_span` and the program
loader do: the frame goes back if the page cannot be mapped. -/
def mapFresh (s : AddressSpace) (virtualAddress : ℕ) (flags : PageFlags) (contents : ℕ → UInt8)
    (pool : Pool) : Except AddressSpaceError Unit × Pool × AddressSpace :=
  match pool.allocFrame with
  | (none, pool) => (.error .outOfFrames, pool, s)
  | (some frame, pool) =>
    match s.mapOwned virtualAddress frame flags (pool.fill frame contents) with
    | (.ok (), pool, s) => (.ok (), pool, s)
    | (.error error, pool, s) => (.error error, pool.freeFrame frame, s)

/-- Unmap a page and drop the frame if the space owned it, as `unmap_span` does. -/
def unmapFree (s : AddressSpace) (virtualAddress : ℕ) (pool : Pool) :
    Except AddressSpaceError UnmappedMapping × Pool × AddressSpace :=
  match s.unmapMapping virtualAddress pool with
  | (.error error, pool, s) => (.error error, pool, s)
  | (.ok mapping, pool, s) =>
    (.ok mapping, if mapping.ownership = .owned then pool.freeFrame mapping.frame else pool, s)

/-- A page backed by a frame that nobody had. -/
structure MappedFresh (s s' : AddressSpace) (pool pool' : Pool) (a f : ℕ) (flags : PageFlags)
    (contents : ℕ → UInt8) : Prop where
  valid : validateUserMapping a f flags = .ok ()
  unmapped : s.leaf a = none
  leaf : LeafSet s s' a (some { frame := f, flags })
  owned : s'.owned = s.owned ++ [⟨a, f⟩]
  devices : s'.devices = s.devices
  free : pool.refcount f = 0
  tracked : pool.tracked f = true
  contents : pool'.bytes f = contents
  exchange : Exchange pool pool' s.tables (s'.tables ++ [f])

theorem mapFresh_ok {contents : ℕ → UInt8}
    (h : s.mapFresh a flags contents pool = (.ok (), pool', s')) (hold : pool.Holds s.refs) :
    ∃ f, MappedFresh s s' pool pool' a f flags contents := by
  unfold mapFresh at h
  split at h
  · cases h
  · rename_i frame pool₁ halloc
    split at h
    · rename_i pool₂ s₁ hmap
      cases h
      obtain ⟨hvalid, hnone, hleaf, hexchange, howned, hdevices⟩ := mapOwned_ok hmap
      obtain ⟨hfresh, hzero, htracked⟩ := allocFrame_some halloc
      have hone : pool₁.refcount frame = 1 := by
        have := hfresh.count frame
        rw [hzero, List.count_nil, List.count_singleton_self] at this
        omega
      have hfilled : Exchange pool (pool₁.fill frame contents) [] [frame] :=
        hfresh.trans (fill_exchange (by rw [hone, List.count_singleton_self]))
      have hnew : frame ∉ s.tables := fun hin => by
        have := (hold frame).1
        have := List.count_pos_iff.mpr (List.mem_append_left s.ownedFrames hin)
        unfold refs at *
        omega
      refine ⟨frame, hvalid, hnone, hleaf, howned, hdevices, hzero, htracked, ?_, ?_⟩
      · -- the tables are other frames
        rw [hexchange.bytes frame, Pool.fill_bytes_self]
        rw [List.count_eq_zero_of_not_mem hnew]
        exact hone ▸ Nat.one_pos
      · refine ((hfilled.add s.tables).congr (List.Perm.refl _) List.perm_append_comm).trans ?_
        exact hexchange.frame [frame]
    · cases h

theorem mapFresh_error {contents : ℕ → UInt8} {error : AddressSpaceError}
    (h : s.mapFresh a flags contents pool = (.error error, pool', s')) :
    s' = s ∧ Exchange pool pool' [] [] ∧
      (error = .outOfFrames ∨ ∃ f, pool.tracked f = true ∧ s.MapError a f flags error) := by
  unfold mapFresh at h
  split at h
  · rename_i pool₁ halloc
    cases h
    exact ⟨rfl, allocFrame_none halloc, Or.inl rfl⟩
  · rename_i frame pool₁ halloc
    split at h
    · cases h
    · rename_i error' pool₂ s₁ hmap
      cases h
      obtain ⟨hsame, hexchange, hreason⟩ := mapOwned_error hmap
      obtain ⟨hfresh, hzero, htracked⟩ := allocFrame_some halloc
      have hone : pool₁.refcount frame ≤ [frame].count frame := by
        have := hfresh.count frame
        rw [hzero, List.count_nil] at this
        omega
      have hfilled : Exchange pool (pool₁.fill frame contents) [] [frame] :=
        hfresh.trans (fill_exchange hone)
      have hkept := hfilled.trans (hexchange.keep [frame])
      refine ⟨hsame, hkept.trans (freeFrame_exchange (hkept.holds_self (Pool.holds_nil pool))), ?_⟩
      exact Or.inr ⟨frame, htracked, hreason⟩

/-- A page backed by a new frame, as an edit. -/
theorem MappedFresh.edit {contents : ℕ → UInt8} (h : MappedFresh s s' pool pool' a f flags contents)
    (hold : pool.Holds s.refs) : Edit pool pool' s s' where
  exchange := by
    refine (h.exchange.frame s.ownedFrames).congr (List.Perm.refl _) ?_
    unfold refs ownedFrames
    rw [h.owned, List.map_append, List.append_assoc]
    exact List.perm_append_comm.append_left _
  tables g hg := by
    by_cases hin : g ∈ s.tables
    · exact Or.inl hin
    · have hzero := h.exchange.fresh g (List.mem_append_left _ hg) hin
      have hcount := (hold g).1
      exact Or.inr (by omega)

theorem MappedFresh.wellFormed {contents : ℕ → UInt8}
    (h : MappedFresh s s' pool pool' a f flags contents) (hwf : s.WellFormed) : s'.WellFormed := by
  refine hwf.insert (validateUserMapping_ok h.valid) h.unmapped h.leaf ?_
  unfold mappings
  rw [h.owned, h.devices, List.append_assoc, List.singleton_append]
  exact List.perm_middle

/-- The references that go with an unmapped page. -/
def UnmappedMapping.released (u : UnmappedMapping) : List ℕ :=
  if u.ownership = .owned then [u.frame] else []

/-- A page taken away, with its frame if it was owned. -/
structure UnmappedFree (s s' : AddressSpace) (pool pool' : Pool) (a : ℕ) (u : UnmappedMapping) :
    Prop where
  user : UserPage a
  mapped : ∃ entry, s.leaf a = some entry ∧ entry.frame = u.frame
  leaf : LeafSet s s' a none
  unlisted : Unlisted s s' ⟨a, u.frame⟩ u.ownership
  exchange : Exchange pool pool' (s.tables ++ UnmappedMapping.released u) s'.tables
  tables : ∀ f ∈ s'.tables, f ∈ s.tables ∨ pool.refcount f = 0

/-- The frames of a space before and after a page was taken off its lists. -/
theorem Unlisted.frames {u : UnmappedMapping} (h : Unlisted s s' ⟨a, u.frame⟩ u.ownership) :
    s.ownedFrames.Perm (UnmappedMapping.released u ++ s'.ownedFrames) := by
  obtain ⟨frame, ownership⟩ := u
  unfold UnmappedMapping.released ownedFrames
  cases h with
  | owned howned hdevices => exact (howned.map OwnedMapping.frame).symm
  | borrowed hdevices howned =>
    rw [howned]
    exact List.Perm.refl _

theorem unmapFree_ok {u : UnmappedMapping} (hwf : s.WellFormed) (hold : pool.Holds s.refs)
    (h : s.unmapFree a pool = (.ok u, pool', s')) : UnmappedFree s s' pool pool' a u := by
  unfold unmapFree at h
  split at h
  · cases h
  · rename_i mapping pool₁ s₁ hunmap
    simp only [Prod.mk.injEq, Except.ok.injEq] at h
    obtain ⟨rfl, rfl, rfl⟩ := h
    obtain ⟨ha, hmapped, hleaf, hexchange, hunlisted⟩ := unmapMapping_ok hwf hold.of_append_left hunmap
    refine ⟨ha, hmapped, hleaf, hunlisted, ?_, fun f hf => ?_⟩
    · have hframed := hexchange.frame (UnmappedMapping.released mapping)
      refine hframed.trans ?_
      unfold UnmappedMapping.released
      split_ifs with howned
      · -- the page's reference is still counted after the tables went
        have hheld : pool₁.Holds [mapping.frame] := by
          have hall := ((hexchange.frame s.ownedFrames).holds_self hold).of_append_right
          have hframes := hunlisted.frames
          unfold UnmappedMapping.released at hframes
          rw [if_pos howned] at hframes
          exact (hall.congr hframes).of_append_left
        exact ((freeFrame_exchange hheld).remove s₁.tables).congr List.perm_append_comm
          (List.Perm.refl _)
      · rw [List.append_nil]
        exact Exchange.refl _ _
    · by_cases hin : f ∈ s.tables
      · exact Or.inl hin
      · exact Or.inr (hexchange.fresh f hf hin)

theorem unmapFree_error {error : AddressSpaceError}
    (h : s.unmapFree a pool = (.error error, pool', s')) :
    s' = s ∧ pool' = pool ∧ s.pageEntryInner a = .error error := by
  unfold unmapFree at h
  split at h
  · rename_i error' pool₁ s₁ hunmap
    cases h
    exact unmapMapping_error hunmap
  · cases h

theorem UnmappedFree.edit {u : UnmappedMapping} (h : UnmappedFree s s' pool pool' a u)
    (hold : pool.Holds s.refs) : Edit pool pool' s s' where
  exchange := by
    refine (h.exchange.frame s'.ownedFrames).congr ?_ (List.Perm.refl _)
    unfold refs
    rw [List.append_assoc]
    exact h.unlisted.frames.symm.append_left _
  tables g hg := by
    rcases h.tables g hg with hin | hzero
    · exact Or.inl hin
    · have hcount := (hold g).1
      exact Or.inr (by omega)

theorem UnmappedFree.wellFormed {u : UnmappedMapping} (h : UnmappedFree s s' pool pool' a u)
    (hwf : s.WellFormed) : s'.WellFormed :=
  hwf.erase (show LeafSet s s' (OwnedMapping.mk a u.frame).virtualAddress none from h.leaf)
    h.unlisted.perm

/-! ## Copy-on-write faults -/

/-- A shared page is an owned one, and its mapping is the one that gets the new frame. -/
theorem setFrame_owned {page : ℕ} {entry : Entry} (hpage : UserPage page) (hwf : s.WellFormed)
    (hleaf : s.leaf page = some entry) (hshared : pool.shared entry.frame = true)
    (hdevices : ∀ m ∈ s.devices, pool.tracked m.frame = false) (copy : ℕ) :
    ∃ rest, s.owned.Perm (⟨page, entry.frame⟩ :: rest) ∧
      (setFrame page copy s.owned).Perm (⟨page, copy⟩ :: rest) := by
  have hnodup := hwf.nodup
  unfold mappings at hnodup
  rw [List.map_append] at hnodup
  refine setFrame_perm hnodup.of_append_left ?_
  rcases List.mem_append.mp (hwf.mem_mappings hpage hleaf) with hin | hin
  · exact hin
  · have := hdevices _ hin
    rw [(shared_iff.mp hshared).1] at this
    cases this

/-- A page made writable in place, or moved to a copy of its frame. -/
theorem CowStep.wellFormed {page : ℕ} {r : CowResolution × Pool × AddressSpace}
    (h : CowStep s page pool r) (hpage : UserPage page) (hwf : s.WellFormed)
    (hdevices : ∀ m ∈ s.devices, pool.tracked m.frame = false) : r.2.2.WellFormed := by
  cases h with
  | notCow => exact hwf
  | inPlace entry hleaf => exact hwf.setLeaf hpage hleaf rfl
  | outOfMemory => exact hwf
  | copied entry copy pool' hleaf hcow hshared =>
    obtain ⟨rest, hperm, hperm'⟩ := setFrame_owned hpage hwf hleaf hshared hdevices copy
    have hset := setLeaf_leafSet hpage hleaf (entry.resolve copy)
    exact hwf.replace ⟨hset.here, hset.elsewhere⟩ (hperm.append_right s.devices)
      (hperm'.append_right s.devices)

/-- A copied page exchanges its frame; otherwise nothing changes hands. -/
theorem CowStep.edit {page : ℕ} {r : CowResolution × Pool × AddressSpace}
    (h : CowStep s page pool r) (hpage : UserPage page) (hwf : s.WellFormed)
    (hdevices : ∀ m ∈ s.devices, pool.tracked m.frame = false) : Edit pool r.2.1 s r.2.2 := by
  cases h with
  | notCow => exact Edit.refl pool s
  | inPlace entry hleaf =>
    exact Edit.of_keep (Exchange.refl _ _) (tables_setLeaf s page _) rfl
  | outOfMemory entry pool' hleaf hcow hexchange => exact Edit.of_keep hexchange rfl rfl
  | copied entry copy pool' hleaf hcow hshared hfree hexchange =>
    obtain ⟨rest, hperm, hperm'⟩ := setFrame_owned hpage hwf hleaf hshared hdevices copy
    exact Edit.of_owned hexchange (hperm.map OwnedMapping.frame) (hperm'.map OwnedMapping.frame)
      (tables_setLeaf s page _)

/-! ## The ledger -/

/-- The references of all spaces to the frames of one pool. -/
structure Ledger (pool : Pool) (spaces : List AddressSpace) : Prop where
  wellFormed : ∀ s ∈ spaces, s.WellFormed
  held : pool.Holds (spaces.flatMap refs)
  frames : ∀ s ∈ spaces, s.ownedFrames.Nodup
  apart : Apart (spaces.flatMap AddressSpace.tables) (spaces.flatMap ownedFrames)

/-- References are those to tables and those to owned pages. -/
theorem refs_perm (spaces : List AddressSpace) :
    (spaces.flatMap refs).Perm
      (spaces.flatMap AddressSpace.tables ++ spaces.flatMap ownedFrames) :=
  (List.flatMap_append_perm spaces AddressSpace.tables ownedFrames).symm

/-- The owned frames of a space are among the references. -/
theorem ownedFrames_subset (s : AddressSpace) (rest : List AddressSpace) :
    s.ownedFrames ⊆ (s :: rest).flatMap refs := by
  intro f hf
  rw [List.flatMap_cons]
  exact List.mem_append_left _ (List.mem_append_right _ hf)

namespace Ledger

variable {rest spaces spaces' : List AddressSpace} {child : AddressSpace}

theorem nil (pool : Pool) : Ledger pool [] :=
  ⟨fun _ h => absurd h List.not_mem_nil, Pool.holds_nil pool,
    fun _ h => absurd h List.not_mem_nil, List.nodup_nil, fun _ h => absurd h List.not_mem_nil⟩

/-- The order of the spaces does not matter. -/
theorem congr (h : Ledger pool spaces) (hperm : spaces.Perm spaces') : Ledger pool spaces' where
  wellFormed s hs := h.wellFormed s (hperm.mem_iff.mpr hs)
  held := h.held.congr (hperm.flatMap_right _)
  frames s hs := h.frames s (hperm.mem_iff.mpr hs)
  apart := by
    refine ⟨(hperm.flatMap_right _).nodup_iff.mp h.apart.nodup, fun f hf hown => ?_⟩
    exact h.apart.disjoint f ((hperm.flatMap_right _).mem_iff.mpr hf)
      ((hperm.flatMap_right _).mem_iff.mpr hown)

/-- A space refers to no frame twice. -/
theorem refs_nodup (h : Ledger pool (s :: rest)) : s.refs.Nodup := by
  have hnodup := h.apart.nodup
  rw [List.flatMap_cons] at hnodup
  refine List.nodup_append.mpr ⟨hnodup.of_append_left, h.frames s List.mem_cons_self, ?_⟩
  intro f hf g hg heq
  subst heq
  exact h.apart.disjoint f (by simp [hf]) (by simp [hg])

/-- A frame that all of `s` refers to as often as it is counted is not referred to by others. -/
theorem not_mem_of_count (h : Ledger pool (s :: rest)) {f : ℕ}
    (hcount : pool.refcount f = s.refs.count f) : f ∉ rest.flatMap refs := by
  intro hin
  have hheld := (h.held f).1
  have hpos := List.count_pos_iff.mpr hin
  rw [List.flatMap_cons, List.count_append] at hheld
  omega

/-- An edit of one space keeps the ledger. -/
theorem edit (h : Ledger pool (s :: rest)) (hedit : Edit pool pool' s s') (hwf : s'.WellFormed) :
    Ledger pool' (s' :: rest) := by
  have hheld : pool.Holds (s.refs ++ rest.flatMap refs) := h.held
  have hnodup := h.refs_nodup
  have hnodup' : s'.refs.Nodup := by
    refine List.nodup_iff_count_le_one.mpr fun f => ?_
    have hone := List.nodup_iff_count_le_one.mp hnodup f
    have honce := hedit.exchange.once hheld.of_append_left f
    omega
  have hrest := (refs_perm rest)
  have htables := h.apart.nodup
  rw [List.flatMap_cons, List.nodup_append] at htables
  -- the tables of `s'` are old ones, or frames that nobody else refers to
  have hnew : ∀ f ∈ s'.tables, f ∉ rest.flatMap refs := by
    intro f hf
    rcases hedit.tables f hf with hin | hown
    · intro hmem
      rcases List.mem_append.mp (hrest.mem_iff.mp hmem) with ht | ho
      · exact htables.2.2 f hin f ht rfl
      · exact h.apart.disjoint f (by simp [hin]) (by
          rw [List.flatMap_cons]
          exact List.mem_append_right _ ho)
    · exact h.not_mem_of_count hown
  refine ⟨fun t ht => ?_, hedit.exchange.holds hheld, fun t ht => ?_, ?_, fun f hf => ?_⟩
  · rcases List.mem_cons.mp ht with rfl | hin
    · exact hwf
    · exact h.wellFormed t (List.mem_cons_of_mem s hin)
  · rcases List.mem_cons.mp ht with rfl | hin
    · exact hnodup'.of_append_right
    · exact h.frames t (List.mem_cons_of_mem s hin)
  · rw [List.flatMap_cons, List.nodup_append]
    refine ⟨hnodup'.of_append_left, htables.2.1, fun f hf g hg heq => ?_⟩
    subst heq
    exact hnew f hf (hrest.mem_iff.mpr (List.mem_append_left _ hg))
  · rw [List.flatMap_cons] at hf ⊢
    intro hown
    rcases List.mem_append.mp hf with hhere | hthere
    · rcases List.mem_append.mp hown with ho | ho
      · exact (List.nodup_append.mp hnodup').2.2 f hhere f ho rfl
      · exact hnew f hhere (hrest.mem_iff.mpr (List.mem_append_right _ ho))
    · -- a table of another space did not become a page of this one
      have hother : f ∈ rest.flatMap refs := hrest.mem_iff.mpr (List.mem_append_left _ hthere)
      rcases List.mem_append.mp hown with ho | ho
      · by_cases hin : f ∈ s.refs
        · rcases List.mem_append.mp hin with ht | ho'
          · exact htables.2.2 f ht f hthere rfl
          · exact h.apart.disjoint f (by
              rw [List.flatMap_cons]
              exact List.mem_append_right _ hthere) (by simp [ho'])
        · have hzero := hedit.exchange.fresh f (List.mem_append_right _ ho) hin
          have hcount := (hheld.of_append_right f).1
          have hpos := List.count_pos_iff.mpr hother
          omega
      · exact h.apart.disjoint f (by
          rw [List.flatMap_cons]
          exact List.mem_append_right _ hthere) (by
          rw [List.flatMap_cons]
          exact List.mem_append_right _ ho)

/-- A space joins whose tables are new and whose pages are shared. -/
theorem join (h : Ledger pool spaces) (hwf : child.WellFormed)
    (htransfer : Transfer pool pool' [] child.refs) (hnodup : child.ownedFrames.Nodup)
    (hframes : child.ownedFrames ⊆ spaces.flatMap ownedFrames)
    (hapart : Apart child.tables (spaces.flatMap refs)) : Ledger pool' (child :: spaces) := by
  refine ⟨fun t ht => ?_, ?_, fun t ht => ?_, ?_, fun f hf hown => ?_⟩
  · rcases List.mem_cons.mp ht with rfl | hin
    · exact hwf
    · exact h.wellFormed t hin
  · exact (htransfer.add _).holds_self h.held
  · rcases List.mem_cons.mp ht with rfl | hin
    · exact hnodup
    · exact h.frames t hin
  · rw [List.flatMap_cons, List.nodup_append]
    refine ⟨hapart.nodup, h.apart.nodup, fun f hf g hg heq => ?_⟩
    subst heq
    exact hapart.disjoint f hf ((refs_perm spaces).mem_iff.mpr (List.mem_append_left _ hg))
  · rw [List.flatMap_cons] at hf hown
    have hold : f ∈ spaces.flatMap ownedFrames := by
      rcases List.mem_append.mp hown with ho | ho
      · exact hframes ho
      · exact ho
    rcases List.mem_append.mp hf with hin | hin
    · exact hapart.disjoint f hin ((refs_perm spaces).mem_iff.mpr (List.mem_append_right _ hold))
    · exact h.apart.disjoint f hin hold

/-- A new space joins. -/
theorem insert (h : Ledger pool spaces) (hnew : new pool = (.ok s, pool')) :
    Ledger pool' (s :: spaces) := by
  obtain ⟨hexchange, hleaf, howned, hdevices⟩ := new_ok hnew
  have hframes : s.ownedFrames = [] := by
    unfold ownedFrames
    rw [howned, List.map_nil]
  have hwf : s.WellFormed := WellFormed.of_empty hleaf (by
    unfold mappings
    rw [howned, hdevices]
    rfl)
  refine h.join hwf hexchange.toTransfer ?_ ?_ (new_apart h.held hnew).1
  · rw [hframes]
    exact List.nodup_nil
  · rw [hframes]
    exact List.nil_subset _

/-- References without an owner do no harm. -/
theorem leak {lost : List ℕ} (h : Ledger pool spaces) (htransfer : Transfer pool pool' [] lost) :
    Ledger pool' spaces where
  wellFormed := h.wellFormed
  held := ((htransfer.add _).holds_self h.held).of_append_right
  frames := h.frames
  apart := h.apart

/-- Marking pages does not change references. -/
theorem marked {done : List ℕ} (h : Ledger pool (s :: rest)) (hmarked : Marked done s s') :
    Ledger pool (s' :: rest) :=
  h.edit (Edit.of_keep (Exchange.refl _ _) hmarked.tables
    (by unfold ownedFrames; rw [hmarked.owned])) (hmarked.wellFormed (h.wellFormed s List.mem_cons_self))

/-- A dropped space leaves. -/
theorem drop (h : Ledger pool (s :: rest)) : Ledger (s.drop pool) rest where
  wellFormed t ht := h.wellFormed t (List.mem_cons_of_mem s ht)
  held := by
    have hheld : pool.Holds (s.refs ++ rest.flatMap refs) := h.held
    exact ((drop_exchange hheld.of_append_left).remove _).holds_self hheld
  frames t ht := h.frames t (List.mem_cons_of_mem s ht)
  apart := by
    have hnodup := h.apart.nodup
    rw [List.flatMap_cons] at hnodup
    refine ⟨hnodup.of_append_right, fun f hf hown => ?_⟩
    exact h.apart.disjoint f (by rw [List.flatMap_cons]; exact List.mem_append_right _ hf)
      (by rw [List.flatMap_cons]; exact List.mem_append_right _ hown)

/-- A forked space joins. -/
theorem fork (h : Ledger pool (s :: rest))
    (hfork : ForkOk s s' child pool pool' ((s :: rest).flatMap refs)) :
    Ledger pool' (child :: s' :: rest) := by
  have hmarked := h.marked hfork.parent
  have hwf : s'.WellFormed := hmarked.wellFormed s' List.mem_cons_self
  have howned : child.ownedFrames = s'.ownedFrames := by
    unfold ownedFrames
    rw [hfork.owned, hfork.parent.owned]
  have hmappings : child.mappings = s'.mappings := by
    unfold mappings
    rw [hfork.owned, hfork.devices, hfork.parent.owned, hfork.parent.devices]
  refine hmarked.join ?_ hfork.transfer ?_ ?_ ?_
  · refine ⟨?_, ?_, fun m hm => ?_, fun a ha hmapped => ?_⟩
    · rw [hmappings]
      exact hwf.nodup
    · rw [hmappings]
      exact hwf.user
    · rw [hmappings] at hm
      rw [hfork.leaf _ (hwf.user m hm)]
      exact hwf.mapped m hm
    · rw [hfork.leaf a ha] at hmapped
      rw [hmappings]
      exact hwf.listed a ha hmapped
  · rw [howned]
    exact hmarked.frames s' List.mem_cons_self
  · rw [howned, List.flatMap_cons]
    exact List.subset_append_left _ _
  · have hrefs : (s' :: rest).flatMap refs = (s :: rest).flatMap refs := by
      rw [List.flatMap_cons, List.flatMap_cons, hfork.parent.refs_eq]
    rw [hrefs]
    exact hfork.apart

end Ledger

end AddressSpace

end SaeOS.Paging
