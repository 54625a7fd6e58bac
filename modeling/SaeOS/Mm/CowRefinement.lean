import SaeOS.Mm.CowSystem

/-!
# Copy-on-write memory is private memory

The system of `CowSystem` refines the naive one: whatever the order of operations, every process sees
the memory that it would have if `fork` copied all pages at once. The reason is that a leaf is
writable only while its frame has one reference (`Exclusive`), so that a write goes to a frame which
nobody else can see.
-/

namespace SaeOS.Paging

open Frame RadixTree

variable {pool pool' : Pool} {s s' t : AddressSpace} {rest : List AddressSpace}

namespace AddressSpace

/-- Writable leaves are the only users of their frames. -/
def Exclusive (pool : Pool) (s : AddressSpace) : Prop :=
  ∀ a entry, UserPage a → s.leaf a = some entry → entry.flags.writable = true →
    pool.refcount entry.frame ≤ 1

/-- The frames of mapped pages are referred to in `x`. -/
def FramesIn (x : List ℕ) (s : AddressSpace) : Prop :=
  ∀ a entry, UserPage a → s.leaf a = some entry → entry.frame ∈ x

theorem WellFormed.framesIn (hwf : s.WellFormed) (hdevices : s.devices = []) :
    s.FramesIn s.ownedFrames := by
  intro a entry ha hleaf
  have hmem := hwf.mem_mappings ha hleaf
  unfold mappings at hmem
  rw [hdevices, List.append_nil] at hmem
  exact List.mem_map_of_mem hmem

theorem FramesIn.mono {x y : List ℕ} (h : s.FramesIn x) (hxy : x ⊆ y) : s.FramesIn y :=
  fun a entry ha hleaf => hxy (h a entry ha hleaf)

/-- Pages whose frames stay referred to keep their bytes, and no reference to a frame with a single
reference is added. -/
theorem view_of_exchange {before after x : List ℕ} (hex : Exchange pool pool' before after)
    (hheld : pool.Holds (before ++ x)) (hframes : t.FramesIn x) :
    t.view pool' = t.view pool ∧ (t.Exclusive pool → t.Exclusive pool') := by
  have hcount : ∀ g ∈ x, before.count g < pool.refcount g := by
    intro g hg
    have := (hheld g).1
    have := List.count_pos_iff.mpr hg
    rw [List.count_append] at *
    omega
  refine ⟨?_, fun hexclusive a entry ha hleaf hwritable => ?_⟩
  · funext a
    unfold view
    split_ifs with ha
    · rcases hleaf : t.leaf a with _ | entry
      · rfl
      · rw [Option.map_some, Option.map_some,
          hex.bytes _ (hcount _ (hframes a entry ha hleaf))]
    · rfl
  · have hone := hexclusive a entry ha hleaf hwritable
    have hlt := hcount _ (hframes a entry ha hleaf)
    have hnot : entry.frame ∉ before := fun hin => by
      have := List.count_pos_iff.mpr hin
      omega
    have hnot' : entry.frame ∉ after := fun hin => by
      have := hex.fresh _ hin hnot
      omega
    have := hex.count entry.frame
    rw [List.count_eq_zero_of_not_mem hnot, List.count_eq_zero_of_not_mem hnot'] at this
    omega

/-- The view of a space after one leaf changed. -/
theorem view_leafSet {a : ℕ} {o : Option Entry} (ha : UserPage a) (h : LeafSet s s' a o) :
    s'.view pool = Function.update (s.view pool) a
      (o.map fun entry => ⟨pool.bytes entry.frame, entry.visible⟩) := by
  funext b
  by_cases heq : b = a
  · subst heq
    rw [Function.update_self]
    unfold view
    rw [if_pos ha, h.here]
  · rw [Function.update_of_ne heq]
    unfold view
    split_ifs with hb
    · rw [h.elsewhere b hb heq]
    · rfl

theorem view_of_userPage {a : ℕ} (ha : UserPage a) :
    s.view pool a = (s.leaf a).map fun entry => ⟨pool.bytes entry.frame, entry.visible⟩ := by
  unfold view
  rw [if_pos ha]

/-- Writing the entry of a page that looks the same to the process. -/
theorem view_setLeaf {a : ℕ} {entry entry' : Entry} (ha : UserPage a) (hleaf : s.leaf a = some entry)
    (hbytes : pool.bytes entry'.frame = pool.bytes entry.frame)
    (hvisible : entry'.visible = entry.visible) :
    (s.setLeaf a entry').view pool = s.view pool := by
  rw [view_leafSet ha (setLeaf_leafSet ha hleaf entry'), Option.map_some, hbytes, hvisible]
  refine Function.update_eq_self_iff.mpr ?_
  rw [view_of_userPage ha, hleaf, Option.map_some]

theorem Exclusive.leafSet {a : ℕ} {o : Option Entry} (h : s.Exclusive pool)
    (hset : LeafSet s s' a o) (ho : ∀ entry, o = some entry → entry.flags.writable = true →
      pool.refcount entry.frame ≤ 1) : s'.Exclusive pool := by
  intro b entry hb hleaf hwritable
  rw [hset.leaf_eq hb] at hleaf
  split_ifs at hleaf with heq
  · exact ho entry hleaf hwritable
  · exact h b entry hb hleaf hwritable

/-- What an operation on the space `s` leaves behind, next to the other spaces. -/
structure Kept (pool pool' : Pool) (s' : AddressSpace) (rest : List AddressSpace) : Prop where
  ledger : Ledger pool' (s' :: rest)
  devices : s'.devices = []
  tracked : pool'.tracked = pool.tracked
  exclusive : s'.Exclusive pool'
  others : ∀ t ∈ rest, t.view pool' = t.view pool ∧ t.Exclusive pool'

/-- The state that an operation on the space `s` finds. -/
structure Ready (pool : Pool) (s : AddressSpace) (rest : List AddressSpace) : Prop where
  ledger : Ledger pool (s :: rest)
  devices : ∀ t ∈ s :: rest, t.devices = []
  aligned : ∀ f, pool.tracked f = true → f % pageSize = 0
  exclusive : ∀ t ∈ s :: rest, t.Exclusive pool

/-- Further operations find what an operation left. -/
theorem Kept.ready (hkept : Kept pool pool' s' rest) (h : Ready pool s rest) :
    Ready pool' s' rest where
  ledger := hkept.ledger
  devices t ht := by
    rcases List.mem_cons.mp ht with rfl | hin
    · exact hkept.devices
    · exact h.devices t (List.mem_cons_of_mem s hin)
  aligned f hf := h.aligned f (hkept.tracked ▸ hf)
  exclusive t ht := by
    rcases List.mem_cons.mp ht with rfl | hin
    · exact hkept.exclusive
    · exact (hkept.others t hin).2

theorem Kept.trans {pool'' : Pool} {s'' : AddressSpace} (h : Kept pool pool' s' rest)
    (h' : Kept pool' pool'' s'' rest) : Kept pool pool'' s'' rest where
  ledger := h'.ledger
  devices := h'.devices
  tracked := h'.tracked.trans h.tracked
  exclusive := h'.exclusive
  others t ht := ⟨(h'.others t ht).1.trans (h.others t ht).1, (h'.others t ht).2⟩

namespace Ready

variable (h : Ready pool s rest)

include h

theorem wellFormed : s.WellFormed := h.ledger.wellFormed s List.mem_cons_self

theorem held : pool.Holds (s.refs ++ rest.flatMap refs) := h.ledger.held

theorem heldSelf : pool.Holds s.refs := h.held.of_append_left

theorem noDevices : s.devices = [] := h.devices s List.mem_cons_self

theorem exclusiveSelf : s.Exclusive pool := h.exclusive s List.mem_cons_self

theorem untracked : ∀ m ∈ s.devices, pool.tracked m.frame = false := by
  rw [h.noDevices]
  exact fun m hm => absurd hm List.not_mem_nil

theorem framesIn : s.FramesIn s.ownedFrames :=
  h.wellFormed.framesIn h.noDevices

theorem otherFrames (ht : t ∈ rest) : t.FramesIn (rest.flatMap refs) := by
  have hmem : t ∈ s :: rest := List.mem_cons_of_mem s ht
  refine ((h.ledger.wellFormed t hmem).framesIn (h.devices t hmem)).mono fun f hf => ?_
  exact List.mem_flatMap.mpr ⟨t, ht, List.mem_append_right _ hf⟩

/-- The other spaces do not see an exchange of this space's references. -/
theorem others {after : List ℕ} (hex : Exchange pool pool' s.refs after) (ht : t ∈ rest) :
    t.view pool' = t.view pool ∧ t.Exclusive pool' := by
  obtain ⟨hview, hexclusive⟩ := view_of_exchange hex h.held (h.otherFrames ht)
  exact ⟨hview, hexclusive (h.exclusive t (List.mem_cons_of_mem s ht))⟩

/-- An edit leaves a good state if the new space is good. -/
theorem kept (hedit : Edit pool pool' s s') (hwf : s'.WellFormed) (hdevices : s'.devices = [])
    (hexclusive : s'.Exclusive pool') : Kept pool pool' s' rest where
  ledger := h.ledger.edit hedit hwf
  devices := hdevices
  tracked := hedit.exchange.tracked
  exclusive := hexclusive
  others _ ht := h.others hedit.exchange ht

/-! ### Single operations -/

theorem mapFresh_kept {a : ℕ} {flags : PageFlags} {contents : ℕ → UInt8}
    (hok : s.mapFresh a flags contents pool = (.ok (), pool', s')) :
    Kept pool pool' s' rest ∧ validateUserMapping a 0 flags = .ok () ∧ s.view pool a = none ∧
      s'.view pool' = Function.update (s.view pool) a (some ⟨contents, flags⟩) := by
  obtain ⟨f, hmapped⟩ := mapFresh_ok hok h.heldSelf
  have ha := validateUserMapping_ok hmapped.valid
  obtain ⟨hview, hexclusive⟩ := view_of_exchange hmapped.exchange h.heldSelf h.framesIn
  have hnew : pool'.refcount f ≤ 1 := by
    have hcount := hmapped.exchange.count f
    have honce := hmapped.exchange.once h.heldSelf.of_append_left f
    have hzero : s.tables.count f = 0 := by
      have := (h.heldSelf.of_append_left f).1
      rw [hmapped.free] at this
      omega
    rw [hmapped.free] at hcount
    omega
  refine ⟨h.kept (hmapped.edit h.heldSelf) (hmapped.wellFormed h.wellFormed) ?_ ?_, ?_, ?_, ?_⟩
  · rw [hmapped.devices]
    exact h.noDevices
  · refine (hexclusive h.exclusiveSelf).leafSet hmapped.leaf fun entry hentry _ => ?_
    cases hentry
    exact hnew
  · -- frames are aligned, so only the address and the flags matter
    have hvalid := hmapped.valid
    have haligned := h.aligned f hmapped.tracked
    unfold validateUserMapping at hvalid ⊢
    simpa [haligned] using hvalid
  · rw [view_of_userPage ha, hmapped.unmapped]
    rfl
  · rw [view_leafSet ha hmapped.leaf, hview, Option.map_some, hmapped.contents]
    simp [Entry.visible]

theorem unmapFree_kept {a : ℕ} {u : UnmappedMapping}
    (hok : s.unmapFree a pool = (.ok u, pool', s')) :
    Kept pool pool' s' rest ∧ UserPage a ∧ s.view pool a ≠ none ∧
      s'.view pool' = Function.update (s.view pool) a none := by
  have hun := unmapFree_ok h.wellFormed h.heldSelf hok
  have hwf := hun.wellFormed h.wellFormed
  have hdevices : s'.devices = [] := by
    cases hown : u.ownership with
    | owned =>
      have := hun.unlisted
      rw [hown] at this
      cases this with
      | owned _ hdevices => rw [hdevices, h.noDevices]
    | borrowed =>
      have := hun.unlisted
      rw [hown] at this
      cases this with
      | borrowed hdevices _ =>
        rw [h.noDevices] at hdevices
        exact absurd hdevices (by simp)
  have hheld : pool.Holds (s.tables ++ UnmappedMapping.released u ++ s'.ownedFrames) := by
    rw [List.append_assoc]
    exact h.heldSelf.congr (hun.unlisted.frames.append_left _)
  obtain ⟨hview, hexclusive⟩ := view_of_exchange hun.exchange hheld (hwf.framesIn hdevices)
  refine ⟨h.kept (hun.edit h.heldSelf) hwf hdevices (hexclusive ?_), hun.user, ?_, ?_⟩
  · exact h.exclusiveSelf.leafSet hun.leaf fun entry hentry => by cases hentry
  · obtain ⟨entry, hleaf, -⟩ := hun.mapped
    rw [view_of_userPage hun.user, hleaf]
    simp
  · rw [hview, view_leafSet hun.user hun.leaf]
    rfl

/-- A frame of this space that is not shared has one reference. -/
theorem refcount_of_not_shared {a : ℕ} {entry : Entry} (ha : UserPage a)
    (hleaf : s.leaf a = some entry) (hshared : pool.shared entry.frame = false) :
    pool.refcount entry.frame ≤ 1 := by
  have hin := List.mem_append_right s.tables (h.framesIn a entry ha hleaf)
  have htracked := (h.heldSelf entry.frame).2 hin
  simpa [Pool.shared, htracked] using hshared

theorem setLeafFlags_kept {a : ℕ} {entry : Entry} (flags : PageFlags) (ha : UserPage a)
    (hleaf : s.leaf a = some entry) :
    Kept pool pool (s.setLeaf a (entry.setFlags flags (pool.shared entry.frame))) rest ∧
      (s.setLeaf a (entry.setFlags flags (pool.shared entry.frame))).view pool =
        Function.update (s.view pool) a (some ⟨pool.bytes entry.frame,
          flags.withCache entry.visible.writeThrough entry.visible.cacheDisable⟩) := by
  have hset := setLeaf_leafSet ha hleaf (entry.setFlags flags (pool.shared entry.frame))
  refine ⟨h.kept (Edit.of_keep (Exchange.refl _ _) (tables_setLeaf s a _) rfl)
    (h.wellFormed.setLeaf ha hleaf rfl) h.noDevices ?_, ?_⟩
  · refine h.exclusiveSelf.leafSet hset fun entry' hentry hwritable => ?_
    cases hentry
    -- the writable bit is only set on a frame that is not shared
    show pool.refcount entry.frame ≤ 1
    refine h.refcount_of_not_shared ha hleaf ?_
    simp only [Entry.setFlags, Bool.and_eq_true, Bool.not_eq_true'] at hwritable
    exact hwritable.2
  · rw [view_leafSet ha hset, Option.map_some]
    have hvisible : (entry.setFlags flags (pool.shared entry.frame)).visible =
        flags.withCache entry.visible.writeThrough entry.visible.cacheDisable := by
      unfold Entry.visible Entry.setFlags PageFlags.withCache
      cases flags.writable <;> cases pool.shared entry.frame <;> rfl
    rw [hvisible]
    rfl

/-- A copy-on-write fault changes nothing that the process sees; afterwards the leaf is writable. -/
theorem resolveCow_kept {page : ℕ} {r : CowResolution × Pool × AddressSpace} (hpage : UserPage page)
    (hstep : CowStep s page pool r) :
    Kept pool r.2.1 r.2.2 rest ∧ r.2.2.view r.2.1 = s.view pool ∧
      (r.1 = .resolved → ∃ entry, r.2.2.leaf page = some entry ∧ entry.flags.writable = true) := by
  have hwf := hstep.wellFormed hpage h.wellFormed h.untracked
  have hedit := hstep.edit hpage h.wellFormed h.untracked
  cases hstep with
  | notCow hnot =>
    exact ⟨h.kept hedit hwf h.noDevices h.exclusiveSelf, rfl, fun hres => by cases hres⟩
  | outOfMemory entry pool' hleaf hcow hexchange =>
    obtain ⟨hview, hexclusive⟩ := view_of_exchange hexchange
      (x := s.ownedFrames) (by
        rw [List.nil_append]
        exact h.heldSelf.of_append_right) h.framesIn
    exact ⟨h.kept hedit hwf h.noDevices (hexclusive h.exclusiveSelf), hview,
      fun hres => by cases hres⟩
  | inPlace entry hleaf hcow hshared =>
    have hset := setLeaf_leafSet hpage hleaf (entry.resolve entry.frame)
    refine ⟨h.kept hedit hwf h.noDevices ?_, ?_, fun _ => ⟨_, hset.here, rfl⟩⟩
    · refine h.exclusiveSelf.leafSet hset fun entry' hentry _ => ?_
      cases hentry
      show pool.refcount entry.frame ≤ 1
      exact h.refcount_of_not_shared hpage hleaf hshared
    · refine view_setLeaf hpage hleaf rfl ?_
      unfold Entry.visible Entry.resolve
      rw [hcow, Bool.or_true]
      rfl
  | copied entry copy pool' hleaf hcow hshared hfree hexchange hbytes =>
    have hset : LeafSet s { s.setLeaf page (entry.resolve copy) with
        owned := setFrame page copy s.owned } page (some (entry.resolve copy)) :=
      ⟨(setLeaf_leafSet hpage hleaf _).here, (setLeaf_leafSet hpage hleaf _).elsewhere⟩
    -- the old frame has another reference, so it can be given up and still be counted
    have hheld : pool.Holds ([entry.frame] ++ s.ownedFrames) := by
      intro g
      obtain ⟨htracked, hmany⟩ := shared_iff.mp hshared
      have hnodup := List.nodup_iff_count_le_one.mp (h.ledger.frames s List.mem_cons_self) g
      have hcounted := h.heldSelf.of_append_right g
      refine ⟨?_, fun hg => ?_⟩
      · rw [List.count_append, count_singleton_eq]
        split_ifs with heq
        · rw [heq] at hnodup ⊢
          omega
        · simpa using hcounted.1
      · rcases List.mem_append.mp hg with hin | hin
        · exact List.mem_singleton.mp hin ▸ htracked
        · exact hcounted.2 hin
    obtain ⟨hview, hexclusive⟩ := view_of_exchange hexchange hheld h.framesIn
    refine ⟨h.kept hedit hwf h.noDevices ?_, ?_, fun _ => ⟨_, hset.here, rfl⟩⟩
    · refine (hexclusive h.exclusiveSelf).leafSet hset fun entry' hentry _ => ?_
      cases hentry
      have hcount := hexchange.count copy
      rw [hfree, List.count_singleton_self] at hcount
      show pool'.refcount copy ≤ 1
      omega
    · show AddressSpace.view _ pool' = s.view pool
      rw [view_leafSet hpage hset, hview]
      refine Function.update_eq_self_iff.mpr ?_
      rw [view_of_userPage hpage, hleaf, Option.map_some, Option.map_some]
      have hvisible : (entry.resolve copy).visible = entry.visible := by
        unfold Entry.visible Entry.resolve
        rw [hcow, Bool.or_true]
        rfl
      rw [hvisible]
      show some (PrivatePage.mk (pool'.bytes copy) entry.visible) = _
      rw [hbytes]

/-- A write through a writable leaf changes one byte of one page of one process. -/
theorem storeByte_kept {a : ℕ} (offset : ℕ) (byte : UInt8) {entry : Entry} (ha : UserPage a)
    (hleaf : s.leaf a = some entry) (hwritable : entry.flags.writable = true) :
    Kept pool (storeByte pool entry.frame offset byte) s rest ∧
      s.view (storeByte pool entry.frame offset byte) = Function.update (s.view pool) a
        (some ⟨Function.update (pool.bytes entry.frame) offset byte, entry.visible⟩) := by
  have hone := h.exclusiveSelf a entry ha hleaf hwritable
  have hmem := h.wellFormed.mem_mappings ha hleaf
  have hin := h.framesIn a entry ha hleaf
  have hcounts := (h.held entry.frame).1
  rw [refs, List.count_append, List.count_append] at hcounts
  have hpos := List.count_pos_iff.mpr hin
  have hex : Exchange pool (storeByte pool entry.frame offset byte) s.refs s.refs := by
    refine fill_exchange ?_
    rw [refs, List.count_append]
    omega
  -- no other page of this space has the frame
  have hother : ∀ b entry', UserPage b → s.leaf b = some entry' → b ≠ a →
      entry'.frame ≠ entry.frame := by
    intro b entry' hb hleaf' hne heq
    have hmem' := h.wellFormed.mem_mappings hb hleaf'
    have hnodup := h.ledger.frames s List.mem_cons_self
    unfold mappings at hmem hmem'
    rw [h.noDevices, List.append_nil] at hmem hmem'
    have := List.inj_on_of_nodup_map hnodup hmem' hmem heq
    exact hne (congrArg OwnedMapping.virtualAddress this)
  refine ⟨⟨?_, h.noDevices, rfl, h.exclusiveSelf, fun t ht => h.others hex ht⟩, ?_⟩
  · exact h.ledger.edit ⟨hex, fun f hf => Or.inl hf⟩ h.wellFormed
  · funext b
    by_cases heq : b = a
    · subst heq
      rw [Function.update_self, view_of_userPage ha, hleaf, Option.map_some]
      unfold storeByte
      rw [Pool.fill_bytes_self]
    · rw [Function.update_of_ne heq]
      unfold view
      split_ifs with hb
      · rcases hleaf' : s.leaf b with _ | entry'
        · rfl
        · rw [Option.map_some, Option.map_some]
          congr 2
          unfold storeByte Pool.fill
          exact Function.update_of_ne (hother b entry' hb hleaf' heq) _ _
      · rfl

end Ready

end AddressSpace

/-! ## The other operations -/

/-- Which pages `resolve_cow` takes for copy-on-write pages. -/
theorem AddressSpace.cow_of_step {page : ℕ} {r : CowResolution × Pool × AddressSpace} {entry : Entry}
    (hstep : CowStep s page pool r) (hleaf : s.leaf page = some entry) :
    (r.1 = .notCow → entry.copyOnWrite = false) ∧ (r.1 = .resolved → entry.copyOnWrite = true) := by
  cases hstep with
  | notCow hnot => exact ⟨fun _ => hnot entry hleaf, fun hres => (by cases hres)⟩
  | inPlace entry' hleaf' hcow =>
    rw [hleaf] at hleaf'
    cases hleaf'
    exact ⟨fun hres => (by cases hres), fun _ => hcow⟩
  | copied entry' copy pool' hleaf' hcow =>
    rw [hleaf] at hleaf'
    cases hleaf'
    exact ⟨fun hres => (by cases hres), fun _ => hcow⟩
  | outOfMemory => exact ⟨fun hres => (by cases hres), fun hres => (by cases hres)⟩

namespace AddressSpace.Ready

variable (h : Ready pool s rest)

include h

theorem write_kept {a : ℕ} {byte : UInt8} {r : Result × Pool × AddressSpace}
    (hr : s.write a byte pool = r) :
    Kept pool r.2.1 r.2.2 rest ∧
      (r.1 = .outOfMemory ∧ r.2.2.view r.2.1 = s.view pool ∨
        (r.1, r.2.2.view r.2.1) =
          if a ≥ lowerHalfEnd then (.fault, s.view pool)
          else
            match s.view pool (pageOf a) with
            | none => (.fault, s.view pool)
            | some page =>
              if page.flags.writable then
                (.done, Function.update (s.view pool) (pageOf a) (some { page with
                  bytes := Function.update page.bytes (a % pageSize) byte }))
              else (.fault, s.view pool)) := by
  have hself : Kept pool pool s rest :=
    h.kept (Edit.refl pool s) h.wellFormed h.noDevices h.exclusiveSelf
  subst hr
  unfold write
  by_cases hhalf : a ≥ lowerHalfEnd
  · rw [if_pos hhalf]
    exact ⟨hself, Or.inr (by rw [if_pos hhalf])⟩
  rw [if_neg hhalf, if_neg hhalf]
  have hpage : UserPage (pageOf a) := userPage_pageOf (by omega)
  rcases hleaf : s.leaf (pageOf a) with _ | entry
  · refine ⟨hself, Or.inr ?_⟩
    rw [view_of_userPage hpage, hleaf]
    rfl
  rw [view_of_userPage hpage, hleaf, Option.map_some]
  dsimp only
  by_cases hwritable : entry.flags.writable = true
  · -- the leaf is writable: the byte goes to the frame
    rw [if_pos hwritable]
    obtain ⟨hkept, hview⟩ := h.storeByte_kept (a % pageSize) byte hpage hleaf hwritable
    refine ⟨hkept, Or.inr ?_⟩
    rw [if_pos (by simp [Entry.visible, hwritable]), hview]
  rw [if_neg hwritable]
  have hstep := resolveCow_step s a pool
  obtain ⟨hkept, hview, hresolved⟩ := h.resolveCow_kept hpage hstep
  have hcow := cow_of_step hstep hleaf
  rcases hr : s.resolveCow a pool with ⟨resolution, pool₁, s₁⟩
  rw [hr] at hkept hview hresolved hcow
  rcases resolution with _ | _ | _
  · -- not copy-on-write: the process may not write
    refine ⟨hkept, Or.inr ?_⟩
    rw [if_neg (by simp [Entry.visible, hwritable, hcow.1 rfl])]
    exact congrArg _ hview
  · -- the leaf is writable now, and shows what it showed before
    obtain ⟨entry', hleaf', hwritable'⟩ := hresolved rfl
    dsimp only at hleaf' hview hkept ⊢
    rw [hleaf']
    dsimp only
    rw [if_pos hwritable']
    obtain ⟨hkept', hview'⟩ :=
      (hkept.ready h).storeByte_kept (a % pageSize) byte hpage hleaf' hwritable'
    refine ⟨hkept.trans hkept', Or.inr ?_⟩
    have hsame := congrFun hview (pageOf a)
    rw [view_of_userPage hpage, view_of_userPage hpage, hleaf, hleaf', Option.map_some,
      Option.map_some] at hsame
    have hpageEq := Option.some.inj hsame
    rw [PrivatePage.mk.injEq] at hpageEq
    rw [if_pos (by simp [Entry.visible, hcow.2 rfl]), hview', hview, hpageEq.1, hpageEq.2]
  · exact ⟨hkept, Or.inl ⟨rfl, hview⟩⟩

end AddressSpace.Ready

/-! ## Runs -/

namespace System

open AddressSpace

/-- What holds in every state of a run. -/
structure Inv (sys : System) : Prop where
  ledger : Ledger sys.pool (live sys.spaces)
  devices : ∀ s ∈ live sys.spaces, s.devices = []
  aligned : ∀ f, sys.pool.tracked f = true → f % pageSize = 0
  exclusive : ∀ s ∈ live sys.spaces, s.Exclusive sys.pool

/-- The spaces of the other processes. -/
def others (sys : System) (i : ℕ) : List AddressSpace :=
  live (sys.spaces.set i none)

theorem getElem?_of_space {sys : System} {i : ℕ} (h : sys.space i = some s) :
    ∃ l r, sys.spaces = l ++ some s :: r ∧ l.length = i := by
  unfold space at h
  have hget : sys.spaces[i]? = some (some s) := by
    rcases hi : sys.spaces[i]? with _ | o
    · rw [hi] at h
      cases h
    · rw [hi] at h
      exact congrArg some h
  obtain ⟨hi, hval⟩ := List.getElem?_eq_some_iff.mp hget
  refine ⟨sys.spaces.take i, sys.spaces.drop (i + 1), ?_, by simp; omega⟩
  rw [← hval, List.getElem_cons_drop, List.take_append_drop]

/-- The spaces are that of a process and those of the others. -/
theorem live_perm {sys : System} {i : ℕ} (h : sys.space i = some s) :
    (live sys.spaces).Perm (s :: sys.others i) ∧
      ∀ s', (live (sys.spaces.set i (some s'))).Perm (s' :: sys.others i) := by
  obtain ⟨l, r, hsplit, rfl⟩ := getElem?_of_space h
  unfold others live
  rw [hsplit]
  refine ⟨?_, fun s' => ?_⟩
  · simp only [List.set_append_right _ _ le_rfl, Nat.sub_self, List.set_cons_zero,
      List.filterMap_append, List.filterMap_cons, id]
    exact List.perm_middle
  · simp only [List.set_append_right _ _ le_rfl, Nat.sub_self, List.set_cons_zero,
      List.filterMap_append, List.filterMap_cons, id]
    exact List.perm_middle

/-- A process's view is what its space shows. -/
theorem view_getElem? (sys : System) (i : ℕ) :
    sys.view[i]?.join = (sys.space i).map fun s => s.view sys.pool := by
  unfold view space
  rw [List.getElem?_map]
  rcases sys.spaces[i]? with _ | _ | s
  · rfl
  · rfl
  · rfl

/-- The views after one space changed and the others show what they did. -/
theorem view_set {sys : System} {i : ℕ} (h : sys.space i = some s) (o : Option AddressSpace)
    (hothers : ∀ t ∈ sys.others i, t.view pool' = t.view sys.pool) :
    System.view ⟨pool', sys.spaces.set i o⟩ =
      sys.view.set i (o.map fun s => s.view pool') := by
  obtain ⟨l, r, hsplit, rfl⟩ := getElem?_of_space h
  unfold others live at hothers
  rw [hsplit] at hothers
  simp only [List.set_append_right _ _ le_rfl, Nat.sub_self, List.set_cons_zero,
    List.filterMap_append, List.filterMap_cons, id, List.mem_append, List.mem_filterMap] at hothers
  unfold view
  rw [hsplit]
  have hsame : ∀ part : List (Option AddressSpace),
      (∀ t, some t ∈ part → t.view pool' = t.view sys.pool) →
      part.map (Option.map fun s => s.view pool') =
        part.map (Option.map fun s => s.view sys.pool) := by
    intro part hpart
    refine List.map_congr_left fun o ho => ?_
    rcases o with _ | t
    · rfl
    · exact congrArg some (hpart t ho)
  simp only [List.map_append, List.map_cons]
  rw [List.set_append_right _ _ le_rfl, Nat.sub_self, List.set_cons_zero, List.map_append,
    List.map_cons, List.set_append_right _ _ (by rw [List.length_map]), List.length_map,
    Nat.sub_self, List.set_cons_zero, hsame l fun t ht => hothers t (Or.inl ⟨some t, ht, rfl⟩),
    hsame r fun t ht => hothers t (Or.inr ⟨some t, ht, rfl⟩)]

namespace Inv

variable {sys : System} {i : ℕ}

theorem ready (h : Inv sys) (hs : sys.space i = some s) : Ready sys.pool s (sys.others i) := by
  obtain ⟨hperm, -⟩ := live_perm hs
  exact ⟨h.ledger.congr hperm, fun t ht => h.devices t (hperm.mem_iff.mpr ht), h.aligned,
    fun t ht => h.exclusive t (hperm.mem_iff.mpr ht)⟩

/-- An operation on one space keeps the invariant, and the views of the other processes. -/
theorem kept (h : Inv sys) (hs : sys.space i = some s)
    (hkept : Kept sys.pool pool' s' (sys.others i)) :
    Inv ⟨pool', sys.spaces.set i (some s')⟩ ∧
      System.view ⟨pool', sys.spaces.set i (some s')⟩ =
        sys.view.set i (some (s'.view pool')) := by
  obtain ⟨-, hperm⟩ := live_perm hs
  have hready := hkept.ready (h.ready hs)
  refine ⟨⟨hready.ledger.congr (hperm s').symm, fun t ht => ?_, hready.aligned, fun t ht => ?_⟩, ?_⟩
  · exact hready.devices t ((hperm s').mem_iff.mp ht)
  · exact hready.exclusive t ((hperm s').mem_iff.mp ht)
  · exact view_set hs (some s') fun t ht => (hkept.others t ht).1

end Inv

/-! ### Steps -/

theorem validateUserMapping_ne_outOfFrames (a f : ℕ) (flags : PageFlags) :
    validateUserMapping a f flags ≠ .error .outOfFrames := by
  unfold validateUserMapping
  split_ifs <;> simp

/-- Without shortage nothing is reported as shortage. -/
theorem not_exhausted_step (n : Naive) (op : Op) : Naive.exhausted op (n.step op).1 = false := by
  cases op with
  | newSpace => rfl
  | mapOwned i a flags contents =>
    simp only [Naive.step, Naive.withMemory]
    rcases n[i]?.join with _ | memory
    · rfl
    · dsimp only
      rcases hvalid : validateUserMapping a 0 flags with error | ⟨⟩
      · have hne : error ≠ .outOfFrames := fun heq =>
          validateUserMapping_ne_outOfFrames a 0 flags (heq ▸ hvalid)
        cases error <;> first | rfl | exact absurd rfl hne
      · dsimp only
        rcases memory a with _ | page
        · rfl
        · rfl
  | forkCow i =>
    simp only [Naive.step]
    rcases n[i]?.join with _ | memory
    · rfl
    · rfl
  | write i a byte =>
    simp only [Naive.step, Naive.withMemory]
    rcases n[i]?.join with _ | memory
    · rfl
    · dsimp only
      split_ifs
      · rfl
      · rcases memory (pageOf a) with _ | page
        · rfl
        · dsimp only
          split_ifs
          · rfl
          · rfl
  | unmap => rfl
  | protect => rfl
  | protectInaccessible => rfl
  | resolveCow => rfl
  | dropSpace => rfl

/-- A result is right if it says that memory ran out and nothing happened, or is the naive one. -/
theorem follow_of {n n' : Naive} {op : Op} {result : Result}
    (h : Naive.exhausted op result = true ∧ n' = n ∨ (result, n') = n.step op) :
    n.follow (op, result) = some n' ∨ ∃ i a, op = .resolveCow i a := by
  have hfollow : (if Naive.exhausted op result then some n
      else if (n.step op).1 = result then some (n.step op).2 else none) = some n' := by
    rcases h with ⟨hexhausted, rfl⟩ | hstep
    · rw [if_pos hexhausted]
    · have hnot := not_exhausted_step n op
      rw [← hstep] at hnot ⊢
      rw [if_neg (by simp [hnot]), if_pos rfl]
  cases op with
  | resolveCow i a => exact Or.inr ⟨i, a, rfl⟩
  | newSpace => exact Or.inl hfollow
  | mapOwned => exact Or.inl hfollow
  | unmap => exact Or.inl hfollow
  | protect => exact Or.inl hfollow
  | protectInaccessible => exact Or.inl hfollow
  | forkCow => exact Or.inl hfollow
  | write => exact Or.inl hfollow
  | dropSpace => exact Or.inl hfollow

namespace Inv

variable {sys : System} {i : ℕ}

/-- A list does not change by writing what it holds. -/
theorem view_set_self (hs : sys.space i = some s) :
    sys.view.set i (some (s.view sys.pool)) = sys.view := by
  have := view_set hs (some s) fun t _ => rfl
  rw [Option.map_some] at this
  rw [← this]
  obtain ⟨l, r, hsplit, rfl⟩ := getElem?_of_space hs
  unfold view
  simp [hsplit]

/-- Operations on one space: if each does to the space what the naive one does to its view, or
nothing for want of memory, then so does the system's operation. -/
theorem withSpace_follow (h : Inv sys) (exhausted : Result → Prop)
    {operation : AddressSpace → Pool → Result × Pool × AddressSpace}
    {naive : Private → Result × Private}
    (hop : ∀ s rest, Ready sys.pool s rest →
      Kept sys.pool (operation s sys.pool).2.1 (operation s sys.pool).2.2 rest ∧
        (exhausted (operation s sys.pool).1 ∧
            (operation s sys.pool).2.2.view (operation s sys.pool).2.1 = s.view sys.pool ∨
          ((operation s sys.pool).1,
            (operation s sys.pool).2.2.view (operation s sys.pool).2.1) =
            naive (s.view sys.pool))) :
    Inv (sys.withSpace i operation).2 ∧
      (exhausted (sys.withSpace i operation).1 ∧
          System.view (sys.withSpace i operation).2 = sys.view ∨
        ((sys.withSpace i operation).1, System.view (sys.withSpace i operation).2) =
          sys.view.withMemory i naive) := by
  unfold withSpace Naive.withMemory
  rw [view_getElem?]
  rcases hs : sys.space i with _ | s
  · exact ⟨h, Or.inr rfl⟩
  · obtain ⟨hkept, hview⟩ := hop s (sys.others i) (h.ready hs)
    obtain ⟨hinv, hset⟩ := h.kept hs hkept
    refine ⟨hinv, ?_⟩
    dsimp only
    rw [hset]
    rcases hview with ⟨hexhausted, hsame⟩ | hnaive
    · exact Or.inl ⟨hexhausted, by rw [hsame, view_set_self hs]⟩
    · refine Or.inr ?_
      dsimp only [Option.map_some]
      rw [← hnaive]

/-- Operations that no process sees. -/
theorem withSpace_same (h : Inv sys)
    {operation : AddressSpace → Pool → Result × Pool × AddressSpace}
    (hop : ∀ s rest, Ready sys.pool s rest →
      Kept sys.pool (operation s sys.pool).2.1 (operation s sys.pool).2.2 rest ∧
        (operation s sys.pool).2.2.view (operation s sys.pool).2.1 = s.view sys.pool) :
    Inv (sys.withSpace i operation).2 ∧ System.view (sys.withSpace i operation).2 = sys.view := by
  unfold withSpace
  rcases hs : sys.space i with _ | s
  · exact ⟨h, rfl⟩
  · obtain ⟨hkept, hview⟩ := hop s (sys.others i) (h.ready hs)
    obtain ⟨hinv, hset⟩ := h.kept hs hkept
    exact ⟨hinv, hset.trans (by rw [hview, view_set_self hs])⟩

/-- A copy-on-write fault. -/
theorem resolveCow_follow {s : AddressSpace} {rest : List AddressSpace} (h : Ready pool s rest)
    (a : ℕ) :
    let r : Result × Pool × AddressSpace :=
      if a ≥ lowerHalfEnd then (.fault, pool, s)
      else
        match s.resolveCow a pool with
        | (resolution, pool, s) => (.cow resolution, pool, s)
    Kept pool r.2.1 r.2.2 rest ∧ r.2.2.view r.2.1 = s.view pool := by
  intro r
  by_cases hhalf : a ≥ lowerHalfEnd
  · have hr : r = (.fault, pool, s) := if_pos hhalf
    rw [hr]
    exact ⟨h.kept (Edit.refl _ _) h.wellFormed h.noDevices h.exclusiveSelf, rfl⟩
  · obtain ⟨hkept, hview, -⟩ := h.resolveCow_kept (userPage_pageOf (by omega))
      (resolveCow_step s a pool)
    have hr : r = (.cow (s.resolveCow a pool).1, (s.resolveCow a pool).2) := if_neg hhalf
    rw [hr]
    exact ⟨hkept, hview⟩

theorem mapOwned_follow {s : AddressSpace} {rest : List AddressSpace} (h : Ready pool s rest)
    (a : ℕ) (flags : PageFlags) (contents : ℕ → UInt8) {r : Except AddressSpaceError Unit}
    (hr : s.mapFresh a flags contents pool = (r, pool', s')) :
    Kept pool pool' s' rest ∧
      (Result.ofExcept r = .failed .outOfFrames ∧ s'.view pool' = s.view pool ∨
        (Result.ofExcept r, s'.view pool') =
          match validateUserMapping a 0 flags with
          | .error error => (.failed error, s.view pool)
          | .ok () =>
            match s.view pool a with
            | some _ => (.failed .alreadyMapped, s.view pool)
            | none => (.done, Function.update (s.view pool) a (some ⟨contents, flags⟩))) := by
  rcases r with error | ⟨⟩
  · obtain ⟨rfl, hexchange, hreason⟩ := mapFresh_error hr
    obtain ⟨hview, hexclusive⟩ := view_of_exchange hexchange (x := s'.ownedFrames)
      (by rw [List.nil_append]; exact h.heldSelf.of_append_right) h.framesIn
    refine ⟨h.kept (Edit.of_keep hexchange rfl rfl) h.wellFormed h.noDevices
      (hexclusive h.exclusiveSelf), ?_⟩
    rcases hreason with rfl | ⟨f, htracked, hreason⟩
    · exact Or.inl ⟨rfl, hview⟩
    -- frames are aligned, so the check depends on the address and the flags only
    have hvalid : validateUserMapping a f flags = validateUserMapping a 0 flags := by
      unfold validateUserMapping
      simp [h.aligned f htracked]
    rcases hreason with rfl | herror | ⟨hok, rfl, hmapped⟩
    · exact Or.inl ⟨rfl, hview⟩
    · refine Or.inr ?_
      rw [← hvalid, herror, hview]
      rfl
    · refine Or.inr ?_
      rw [← hvalid, hok, hview]
      dsimp only
      rw [view_of_userPage (validateUserMapping_ok hok)]
      rcases hleaf : s'.leaf a with _ | entry
      · exact absurd hleaf hmapped
      · rfl
  · obtain ⟨hkept, hvalid, hnone, hview⟩ := h.mapFresh_kept hr
    refine ⟨hkept, Or.inr ?_⟩
    rw [hvalid]
    dsimp only
    rw [hnone, hview]
    rfl

theorem pageEntryInner_eq (s : AddressSpace) (a : ℕ) :
    s.pageEntryInner a =
      match validateUserMapping a 0 .userRead with
      | .error error => .error error
      | .ok () =>
        match s.leaf a with
        | none => .error .notMapped
        | some entry => .ok entry := by
  unfold pageEntryInner validateUserMapping
  by_cases haligned : a % pageSize ≠ 0
  · rw [if_pos haligned, if_pos (Or.inl haligned)]
  · have hboth : ¬(a % pageSize ≠ 0 ∨ 0 % pageSize ≠ 0) := by simpa using haligned
    rw [if_neg haligned, if_neg hboth]
    by_cases hhalf : a ≥ lowerHalfEnd
    · rw [if_pos hhalf, if_pos hhalf]
      split_ifs <;> rfl
    · rw [if_neg hhalf, if_neg hhalf]
      rfl

theorem unmap_follow {s : AddressSpace} {rest : List AddressSpace} (h : Ready pool s rest)
    (a : ℕ) {r : Except AddressSpaceError UnmappedMapping}
    (hr : s.unmapFree a pool = (r, pool', s')) :
    Kept pool pool' s' rest ∧
      (Result.ofExcept r, s'.view pool') =
        match validateUserMapping a 0 .userRead with
        | .error error => (.failed error, s.view pool)
        | .ok () =>
          match s.view pool a with
          | none => (.failed .notMapped, s.view pool)
          | some _ => (.done, Function.update (s.view pool) a none) := by
  rcases r with error | u
  · obtain ⟨rfl, rfl, herror⟩ := unmapFree_error hr
    refine ⟨h.kept (Edit.refl _ _) h.wellFormed h.noDevices h.exclusiveSelf, ?_⟩
    rw [pageEntryInner_eq] at herror
    rcases hvalid : validateUserMapping a 0 .userRead with error' | ⟨⟩
    · rw [hvalid] at herror
      cases herror
      rfl
    · rw [hvalid] at herror
      dsimp only at herror ⊢
      rw [view_of_userPage (validateUserMapping_ok hvalid)]
      rcases hleaf : s'.leaf a with _ | entry
      · rw [hleaf] at herror
        cases herror
        rfl
      · rw [hleaf] at herror
        cases herror
  · obtain ⟨hkept, ha, hmapped, hview⟩ := h.unmapFree_kept hr
    refine ⟨hkept, ?_⟩
    have hvalid : validateUserMapping a 0 .userRead = .ok () := by
      unfold validateUserMapping
      rw [if_neg (by simp [ha.aligned]), if_neg (by simpa using ha.lower)]
      rfl
    rw [hvalid, hview]
    dsimp only
    rcases hpage : s.view pool a with _ | page
    · exact absurd hpage hmapped
    · rfl

theorem setLeafFlags_follow {s : AddressSpace} {rest : List AddressSpace} (h : Ready pool s rest)
    {a : ℕ} (ha : UserPage a) (flags : PageFlags) :
    Kept pool pool (s.setLeafFlags a flags pool).2 rest ∧
      (Result.ofExcept (s.setLeafFlags a flags pool).1, (s.setLeafFlags a flags pool).2.view pool) =
        Naive.setFlags (s.view pool) a flags := by
  unfold Naive.setFlags
  rw [view_of_userPage ha]
  rcases hleaf : s.leaf a with _ | entry
  · rw [setLeafFlags_of_none hleaf]
    exact ⟨h.kept (Edit.refl _ _) h.wellFormed h.noDevices h.exclusiveSelf, rfl⟩
  · rw [setLeafFlags_of_leaf hleaf]
    obtain ⟨hkept, hview⟩ := h.setLeafFlags_kept flags ha hleaf
    refine ⟨hkept, ?_⟩
    rw [hview]
    rfl

/-- Marking a page does not change what its process sees. -/
theorem visible_markCow (entry : Entry) : entry.markCow.visible = entry.visible := by
  unfold Entry.markCow Entry.visible
  split_ifs with hwritable
  · simp [hwritable]
  · rfl

theorem view_marked {done : List ℕ} (h : Marked done s s') : s'.view pool = s.view pool := by
  funext a
  unfold AddressSpace.view
  split_ifs with ha
  · rw [h.leaf a ha]
    split_ifs
    · rcases s.leaf a with _ | entry
      · rfl
      · simp [visible_markCow]
    · rfl
  · rfl

/-- A page that was marked is not writable. -/
theorem not_writable_markCow (entry : Entry) : entry.markCow.flags.writable = false := by
  unfold Entry.markCow
  split_ifs with hwritable
  · rfl
  · simpa using hwritable

/-- Taking references does not change any memory. -/
theorem view_of_transfer {after x : List ℕ} (htransfer : Transfer pool pool' [] after)
    (hheld : pool.Holds x) (hframes : t.FramesIn x) : t.view pool' = t.view pool := by
  funext a
  unfold AddressSpace.view
  split_ifs with ha
  · rcases hleaf : t.leaf a with _ | entry
    · rfl
    · have hin := hframes a entry ha hleaf
      have hpos := lt_of_lt_of_le (List.count_pos_iff.mpr hin) (hheld entry.frame).1
      rw [Option.map_some, Option.map_some, htransfer.bytes _ hpos]
  · rfl

theorem marked_view {done : List ℕ} {after : List ℕ} (h : Ready pool s rest)
    (hmarked : Marked done s s') (htransfer : Transfer pool pool' [] after) :
    s'.view pool' = s.view pool := by
  have hframes : s'.FramesIn s.ownedFrames := by
    have hframes := (hmarked.wellFormed h.wellFormed).framesIn (by
      rw [hmarked.devices]
      exact h.noDevices)
    unfold ownedFrames at hframes ⊢
    rwa [hmarked.owned] at hframes
  rw [view_of_transfer htransfer h.heldSelf.of_append_right hframes, view_marked hmarked]

/-- A failed fork leaves everything as the processes see it. -/
theorem forkError_kept {error : AddressSpaceError} {done : List OwnedMapping} {leak : List ℕ}
    (h : Ready pool s rest) (hfork : ForkError s s' pool pool' error done leak) :
    Kept pool pool' s' rest ∧ s'.view pool' = s.view pool := by
  have hledger := (h.ledger.marked hfork.parent).leak hfork.transfer
  have hsub : leak ⊆ s.ownedFrames := fun f hf =>
    (hfork.part.sublist.map OwnedMapping.frame).subset (hfork.leaked hf)
  have hcount := hfork.transfer.count
  simp only [List.count_nil, Nat.add_zero] at hcount
  refine ⟨⟨hledger, ?_, hfork.transfer.tracked, ?_, fun t ht => ⟨?_, ?_⟩⟩, ?_⟩
  · rw [hfork.parent.devices]
    exact h.noDevices
  · -- a leaf that is still writable was not reached, so its frame is not among the lost ones
    intro a entry ha hleaf hwritable
    rw [hfork.parent.leaf a ha] at hleaf
    split_ifs at hleaf with hdone
    · rcases hold : s.leaf a with _ | old
      · rw [hold] at hleaf
        cases hleaf
      · rw [hold, Option.map_some] at hleaf
        cases hleaf
        rw [not_writable_markCow] at hwritable
        cases hwritable
    · have hone := h.exclusiveSelf a entry ha hleaf hwritable
      have hnot : entry.frame ∉ leak := by
        intro hin
        obtain ⟨m, hm, hframe⟩ := List.mem_map.mp (hfork.leaked hin)
        have hmem := h.wellFormed.mem_mappings ha hleaf
        unfold mappings at hmem
        rw [h.noDevices, List.append_nil] at hmem
        have := List.inj_on_of_nodup_map (h.ledger.frames s List.mem_cons_self)
          (hfork.part.subset hm) hmem hframe
        rw [this] at hm
        exact hdone (List.mem_map_of_mem hm)
      rw [hcount, List.count_eq_zero_of_not_mem hnot]
      exact hone
  · exact view_of_transfer hfork.transfer h.held.of_append_right (h.otherFrames ht)
  · intro a entry ha hleaf hwritable
    have hone := h.exclusive t (List.mem_cons_of_mem s ht) a entry ha hleaf hwritable
    have hnot : entry.frame ∉ leak := by
      intro hin
      have hheld := (h.held entry.frame).1
      have hhere : 0 < s.refs.count entry.frame :=
        List.count_pos_iff.mpr (List.mem_append_right s.tables (hsub hin))
      have hthere := List.count_pos_iff.mpr (h.otherFrames ht a entry ha hleaf)
      rw [List.count_append] at hheld
      omega
    rw [hcount, List.count_eq_zero_of_not_mem hnot]
    exact hone
  · exact marked_view h hfork.parent hfork.transfer

/-- After a fork, parent and child see what the parent saw, and neither can write without a fault. -/
theorem forkOk_kept {child : AddressSpace} (h : Ready pool s rest)
    (hfork : ForkOk s s' child pool pool' ((s :: rest).flatMap refs)) :
    Ledger pool' (child :: s' :: rest) ∧ (∀ t ∈ child :: s' :: rest, t.devices = []) ∧
      (∀ t ∈ child :: s' :: rest, t.Exclusive pool') ∧ s'.view pool' = s.view pool ∧
      child.view pool' = s.view pool ∧ ∀ t ∈ rest, t.view pool' = t.view pool := by
  have hview := marked_view h hfork.parent hfork.transfer
  have hdevices : s'.devices = [] := by
    rw [hfork.parent.devices]
    exact h.noDevices
  -- every mapped page is an owned one, and marked
  have hmarked : s'.Exclusive pool' := by
    intro a entry ha hleaf hwritable
    rw [hfork.parent.leaf a ha] at hleaf
    split_ifs at hleaf with hdone
    · rcases hold : s.leaf a with _ | old
      · rw [hold] at hleaf
        cases hleaf
      · rw [hold, Option.map_some] at hleaf
        cases hleaf
        rw [not_writable_markCow] at hwritable
        cases hwritable
    · have hmem := h.wellFormed.mem_mappings ha hleaf
      unfold mappings at hmem
      rw [h.noDevices, List.append_nil] at hmem
      exact absurd (List.mem_map_of_mem hmem) hdone
  refine ⟨h.ledger.fork hfork, fun t ht => ?_, fun t ht => ?_, hview, ?_, fun t ht => ?_⟩
  · rcases List.mem_cons.mp ht with rfl | hin
    · rw [hfork.devices]
      exact h.noDevices
    · rcases List.mem_cons.mp hin with rfl | hin
      · exact hdevices
      · exact h.devices t (List.mem_cons_of_mem s hin)
  · rcases List.mem_cons.mp ht with rfl | hin
    · intro a entry ha hleaf
      rw [hfork.leaf a ha] at hleaf
      exact hmarked a entry ha hleaf
    · rcases List.mem_cons.mp hin with rfl | hin
      · exact hmarked
      · -- the frame of a writable leaf of another process is not among the shared ones
        intro a entry ha hleaf hwritable
        have hone := h.exclusive t (List.mem_cons_of_mem s hin) a entry ha hleaf hwritable
        have hthere := h.otherFrames hin a entry ha hleaf
        have hpos := List.count_pos_iff.mpr hthere
        have hheld := (h.held entry.frame).1
        rw [List.count_append] at hheld
        have hnot : entry.frame ∉ child.refs := by
          intro hmem
          rcases List.mem_append.mp hmem with htable | hframe
          · refine hfork.apart.disjoint _ htable ?_
            rw [List.flatMap_cons]
            exact List.mem_append_right _ hthere
          · have hown : entry.frame ∈ s.refs := by
              unfold ownedFrames at hframe
              rw [hfork.owned] at hframe
              exact List.mem_append_right _ hframe
            have := List.count_pos_iff.mpr hown
            omega
        have hcount := hfork.transfer.count entry.frame
        rw [List.count_nil, List.count_eq_zero_of_not_mem hnot] at hcount
        omega
  · rw [← hview]
    funext a
    unfold AddressSpace.view
    split_ifs with ha
    · rw [hfork.leaf a ha]
    · rfl
  · exact view_of_transfer hfork.transfer h.held.of_append_right (h.otherFrames ht)

theorem forkCow_follow (h : Inv sys) (i : ℕ) :
    Inv (sys.step (.forkCow i)).2 ∧
      ((sys.step (.forkCow i)).1 = .failed .outOfFrames ∧
          System.view (sys.step (.forkCow i)).2 = sys.view ∨
        ((sys.step (.forkCow i)).1, System.view (sys.step (.forkCow i)).2) =
          sys.view.step (.forkCow i)) := by
  simp only [step, Naive.step]
  rw [view_getElem?]
  rcases hs : sys.space i with _ | s
  · exact ⟨h, Or.inr rfl⟩
  have hready := h.ready hs
  dsimp only [Option.map_some]
  rcases forkCow_spec hready.wellFormed (hready.ledger.frames s List.mem_cons_self)
      (ownedFrames_subset s _) hready.ledger.held with
    ⟨child, pool', s', hok, hfork⟩ | ⟨error, pool', s', done, leak, herror, hfork⟩
  · rw [hok]
    dsimp only
    obtain ⟨hledger, hdevices, hexclusive, hview, hchild, hothers⟩ := forkOk_kept hready hfork
    obtain ⟨-, hperm⟩ := live_perm hs
    have hlive : (live (sys.spaces.set i (some s') ++ [some child])).Perm
        (child :: s' :: sys.others i) := by
      have happend : live (sys.spaces.set i (some s') ++ [some child]) =
          live (sys.spaces.set i (some s')) ++ [child] := List.filterMap_append
      rw [happend]
      exact (List.perm_append_singleton child _).trans ((hperm s').cons child)
    refine ⟨⟨hledger.congr hlive.symm, fun t ht => hdevices t (hlive.mem_iff.mp ht), fun f hf => ?_,
      fun t ht => hexclusive t (hlive.mem_iff.mp ht)⟩, Or.inr ?_⟩
    · exact h.aligned f (hfork.transfer.tracked ▸ hf)
    · have hset := view_set hs (some s') hothers
      rw [Option.map_some, hview, view_set_self hs] at hset
      have hview' : System.view ⟨pool', sys.spaces.set i (some s') ++ [some child]⟩ =
          System.view ⟨pool', sys.spaces.set i (some s')⟩ ++ [some (child.view pool')] :=
        List.map_append
      rw [hview', hset, hchild]
  · rw [herror]
    dsimp only
    obtain ⟨hkept, hview⟩ := forkError_kept hready hfork
    obtain ⟨hinv, hset⟩ := h.kept hs hkept
    refine ⟨hinv, Or.inl ⟨by rw [hfork.reason], ?_⟩⟩
    rw [hset, hview, view_set_self hs]

theorem newSpace_follow (h : Inv sys) :
    Inv (sys.step .newSpace).2 ∧
      ((sys.step .newSpace).1 = .failed .outOfFrames ∧
          System.view (sys.step .newSpace).2 = sys.view ∨
        ((sys.step .newSpace).1, System.view (sys.step .newSpace).2) = sys.view.step .newSpace) := by
  -- the spaces that exist do not notice frames that are allocated
  have hframes : ∀ t ∈ live sys.spaces, t.FramesIn ((live sys.spaces).flatMap refs) := by
    intro t ht
    refine ((h.ledger.wellFormed t ht).framesIn (h.devices t ht)).mono fun f hf => ?_
    exact List.mem_flatMap.mpr ⟨t, ht, List.mem_append_right _ hf⟩
  have hkeep : ∀ {pool' after}, Exchange sys.pool pool' [] after →
      (∀ t ∈ live sys.spaces, t.view pool' = t.view sys.pool ∧ t.Exclusive pool') := by
    intro pool' after hexchange t ht
    obtain ⟨hview, hexclusive⟩ := view_of_exchange hexchange
      (by rw [List.nil_append]; exact h.ledger.held) (hframes t ht)
    exact ⟨hview, hexclusive (h.exclusive t ht)⟩
  have hviews : ∀ {pool' after}, Exchange sys.pool pool' [] after →
      System.view ⟨pool', sys.spaces⟩ = sys.view := by
    intro pool' after hexchange
    refine List.map_congr_left fun o ho => ?_
    rcases o with _ | t
    · rfl
    · exact congrArg some (hkeep hexchange t (List.mem_filterMap.mpr ⟨some t, ho, rfl⟩)).1
  simp only [step, Naive.step]
  rcases hnew : AddressSpace.new sys.pool with ⟨error | s, pool'⟩
  · obtain ⟨hexchange, rfl⟩ := new_error hnew
    refine ⟨⟨h.ledger.leak hexchange.toTransfer, h.devices, fun f hf => ?_,
      fun t ht => (hkeep hexchange t ht).2⟩, Or.inl ⟨rfl, hviews hexchange⟩⟩
    exact h.aligned f (hexchange.tracked ▸ hf)
  · obtain ⟨hexchange, hleaf, howned, hdevices⟩ := new_ok hnew
    have hperm : (live (sys.spaces ++ [some s])).Perm (s :: live sys.spaces) := by
      have happend : live (sys.spaces ++ [some s]) = live sys.spaces ++ [s] :=
        List.filterMap_append
      rw [happend]
      exact List.perm_append_singleton s _
    refine ⟨⟨(h.ledger.insert hnew).congr hperm.symm, fun t ht => ?_, fun f hf => ?_,
      fun t ht => ?_⟩, Or.inr ?_⟩
    · rcases List.mem_cons.mp (hperm.mem_iff.mp ht) with rfl | hin
      · exact hdevices
      · exact h.devices t hin
    · exact h.aligned f (hexchange.tracked ▸ hf)
    · rcases List.mem_cons.mp (hperm.mem_iff.mp ht) with rfl | hin
      · intro a entry _ hentry
        rw [hleaf a] at hentry
        cases hentry
      · exact (hkeep hexchange t hin).2
    · have hempty : s.view pool' = fun _ => none := by
        funext a
        unfold AddressSpace.view
        split_ifs
        · rw [hleaf a]
          rfl
        · rfl
      have hview' : System.view ⟨pool', sys.spaces ++ [some s]⟩ =
          System.view ⟨pool', sys.spaces⟩ ++ [some (s.view pool')] := List.map_append
      rw [hview', hviews hexchange, hempty]

theorem dropSpace_follow (h : Inv sys) (i : ℕ) :
    Inv (sys.step (.dropSpace i)).2 ∧
      ((sys.step (.dropSpace i)).1, System.view (sys.step (.dropSpace i)).2) =
        sys.view.step (.dropSpace i) := by
  simp only [step, Naive.step]
  rw [view_getElem?]
  rcases hs : sys.space i with _ | s
  · exact ⟨h, rfl⟩
  · have hready := h.ready hs
    have hexchange := drop_exchange hready.heldSelf
    have hothers := fun t ht => hready.others hexchange (t := t) ht
    refine ⟨⟨hready.ledger.drop, fun t ht => hready.devices t (List.mem_cons_of_mem s ht),
      fun f hf => h.aligned f (hexchange.tracked ▸ hf), fun t ht => (hothers t ht).2⟩, ?_⟩
    dsimp only [Option.map_some]
    rw [view_set hs none fun t ht => (hothers t ht).1]
    rfl

/-- One step: the invariant is kept, and the processes see what the naive model says. -/
theorem step_follow (h : Inv sys) (op : Op) :
    Inv (sys.step op).2 ∧
      sys.view.follow (op, (sys.step op).1) = some (System.view (sys.step op).2) := by
  -- operations other than a copy-on-write fault
  have hassemble : ∀ op : Op, (∀ i a, op ≠ .resolveCow i a) →
      (Inv (sys.step op).2 ∧
        (Naive.exhausted op (sys.step op).1 = true ∧ System.view (sys.step op).2 = sys.view ∨
          ((sys.step op).1, System.view (sys.step op).2) = sys.view.step op)) →
      Inv (sys.step op).2 ∧
        sys.view.follow (op, (sys.step op).1) = some (System.view (sys.step op).2) := by
    rintro op hop ⟨hinv, hview⟩
    refine ⟨hinv, ?_⟩
    rcases follow_of hview with hfollow | ⟨i, a, hcow⟩
    · exact hfollow
    · exact absurd hcow (hop i a)
  cases op with
  | newSpace =>
    obtain ⟨hinv, hview⟩ := h.newSpace_follow
    refine hassemble _ (by simp) ⟨hinv, ?_⟩
    rcases hview with ⟨hexhausted, hsame⟩ | hstep
    · exact Or.inl ⟨by rw [hexhausted]; rfl, hsame⟩
    · exact Or.inr hstep
  | mapOwned i a flags contents =>
    refine hassemble _ (by simp) ?_
    refine h.withSpace_follow (fun r => Naive.exhausted _ r = true) fun s rest hready => ?_
    rcases hr : s.mapFresh a flags contents sys.pool with ⟨r, pool', s'⟩
    dsimp only
    obtain ⟨hkept, hview⟩ := mapOwned_follow hready a flags contents hr
    refine ⟨hkept, ?_⟩
    rcases hview with ⟨hexhausted, hsame⟩ | hstep
    · exact Or.inl ⟨by rw [hexhausted]; rfl, hsame⟩
    · exact Or.inr hstep
  | unmap i a =>
    refine hassemble _ (by simp) ?_
    refine h.withSpace_follow (fun r => Naive.exhausted _ r = true) fun s rest hready => ?_
    obtain ⟨hkept, hview⟩ := unmap_follow hready a rfl
    exact ⟨hkept, Or.inr hview⟩
  | protect i a flags =>
    refine hassemble _ (by simp) ?_
    refine h.withSpace_follow (fun r => Naive.exhausted _ r = true) fun s rest hready => ?_
    unfold AddressSpace.protect
    rcases hvalid : validateUserMapping a 0 flags with error | ⟨⟩
    · exact ⟨hready.kept (Edit.refl _ _) hready.wellFormed hready.noDevices hready.exclusiveSelf,
        Or.inr rfl⟩
    · obtain ⟨hkept, hview⟩ := setLeafFlags_follow hready (validateUserMapping_ok hvalid) flags
      exact ⟨hkept, Or.inr hview⟩
  | protectInaccessible i a =>
    refine hassemble _ (by simp) ?_
    refine h.withSpace_follow (fun r => Naive.exhausted _ r = true) fun s rest hready => ?_
    unfold AddressSpace.protectInaccessible
    rcases hvalid : validateUserMapping a 0 .userRead with error | ⟨⟩
    · exact ⟨hready.kept (Edit.refl _ _) hready.wellFormed hready.noDevices hready.exclusiveSelf,
        Or.inr rfl⟩
    · obtain ⟨hkept, hview⟩ := setLeafFlags_follow hready (validateUserMapping_ok hvalid) .inaccessible
      exact ⟨hkept, Or.inr hview⟩
  | forkCow i =>
    obtain ⟨hinv, hview⟩ := h.forkCow_follow i
    refine hassemble _ (by simp) ⟨hinv, ?_⟩
    rcases hview with ⟨hexhausted, hsame⟩ | hstep
    · exact Or.inl ⟨by rw [hexhausted]; rfl, hsame⟩
    · exact Or.inr hstep
  | write i a byte =>
    refine hassemble _ (by simp) ?_
    refine h.withSpace_follow (fun r => Naive.exhausted _ r = true) fun s rest hready => ?_
    obtain ⟨hkept, hview⟩ := hready.write_kept rfl
    refine ⟨hkept, ?_⟩
    rcases hview with ⟨hexhausted, hsame⟩ | hstep
    · exact Or.inl ⟨by rw [hexhausted]; rfl, hsame⟩
    · exact Or.inr hstep
  | dropSpace i =>
    obtain ⟨hinv, hview⟩ := h.dropSpace_follow i
    exact hassemble _ (by simp) ⟨hinv, Or.inr hview⟩
  | resolveCow i a =>
    -- the processes see nothing of it
    have hsame : Inv (sys.step (.resolveCow i a)).2 ∧
        System.view (sys.step (.resolveCow i a)).2 = sys.view := by
      refine h.withSpace_same fun s rest hready => ?_
      exact resolveCow_follow hready a
    exact ⟨hsame.1, congrArg some hsame.2.symm⟩

end Inv

/-- The pool that a run starts with: frames are page addresses. -/
def Start (sys : System) : Prop :=
  sys.spaces = [] ∧ ∀ f, sys.pool.tracked f = true → f % pageSize = 0

theorem Start.inv {sys : System} (h : Start sys) : Inv sys := by
  obtain ⟨hspaces, haligned⟩ := h
  have hlive : live sys.spaces = [] := by rw [hspaces]; rfl
  refine ⟨?_, ?_, haligned, ?_⟩
  · rw [hlive]
    exact Ledger.nil sys.pool
  · rw [hlive]
    exact fun t ht => absurd ht List.not_mem_nil
  · rw [hlive]
    exact fun t ht => absurd ht List.not_mem_nil

theorem Inv.run_follow {sys : System} (h : Inv sys) (ops : List Op) :
    Inv (sys.run ops).2 ∧
      sys.view.run (ops.zip (sys.run ops).1) = some (System.view (sys.run ops).2) := by
  induction ops generalizing sys with
  | nil => exact ⟨h, rfl⟩
  | cons op ops ih =>
    obtain ⟨hinv, hfollow⟩ := h.step_follow op
    obtain ⟨hinv', hrun⟩ := ih hinv
    refine ⟨hinv', ?_⟩
    have hzip : (op :: ops).zip (sys.run (op :: ops)).1 =
        (op, (sys.step op).1) :: ops.zip ((sys.step op).2.run ops).1 := rfl
    rw [hzip, Naive.run, List.foldlM_cons, hfollow]
    exact hrun

/-- In every run, whatever the operations and wherever memory runs out, every process sees exactly
the memory of the naive model in which `fork` copies all pages, and no leaf is writable while its
frame has more than one reference. -/
theorem run_refines_naive (sys : System) (hstart : Start sys) (ops : List Op) :
    Naive.run [] (ops.zip (sys.run ops).1) = some (System.view (sys.run ops).2) ∧
      ∀ i s a entry, (sys.run ops).2.space i = some s → UserPage a → s.leaf a = some entry →
        entry.flags.writable = true → (sys.run ops).2.pool.refcount entry.frame ≤ 1 := by
  obtain ⟨hinv, hrun⟩ := hstart.inv.run_follow ops
  have hempty : sys.view = [] := by
    unfold view
    rw [hstart.1]
    rfl
  rw [hempty] at hrun
  refine ⟨hrun, fun i s a entry hs ha hleaf hwritable => ?_⟩
  exact (hinv.ready hs).exclusiveSelf a entry ha hleaf hwritable

/-- Sixteen free frames. -/
def sixteenFrames : System where
  pool :=
    { refcount := fun _ => 0
      tracked := fun f => f % pageSize == 0
      bytes := fun _ _ => 0
      allocations := (List.range 16).map fun n => some (n * pageSize, fun _ => 0) }
  spaces := []

/-- A process maps a page, forks, and both sides write to it. -/
def forkThenWrite : List Op :=
  [.newSpace, .mapOwned 0 0x400000 .userReadWrite fun _ => 7, .forkCow 0, .write 1 0x400000 8,
    .write 0 0x400001 9]

/-- A fork after which both sides write: parent and child each see their own byte. -/
theorem run_refines_naive_forkThenWrite :
    (sixteenFrames.run forkThenWrite).1 = [.done, .done, .done, .done, .done] ∧
      Naive.run [] (forkThenWrite.zip (sixteenFrames.run forkThenWrite).1) =
        some (System.view (sixteenFrames.run forkThenWrite).2) ∧
      ∀ i s a entry, (sixteenFrames.run forkThenWrite).2.space i = some s → UserPage a →
        s.leaf a = some entry → entry.flags.writable = true →
        (sixteenFrames.run forkThenWrite).2.pool.refcount entry.frame ≤ 1 :=
  ⟨by decide +kernel, run_refines_naive sixteenFrames ⟨rfl, fun f hf => by
    simpa [sixteenFrames] using hf⟩ forkThenWrite⟩

end System

end SaeOS.Paging
