import SaeOS.Mm.PagingOps

/-!
# Forking an address space

`forkCow` takes one more reference to every owned page, marks writable pages copy-on-write on both
sides, and shares device pages. It can fail at any page. What it took by then is given back when the
unfinished child is dropped, with one exception: if `frame_get` refuses a page, the child is dropped
before it was handed the pages taken so far, and their references are lost (`ForkFailed.leaked`).
-/

namespace SaeOS.Paging

open Frame RadixTree

/-- Marking an entry a second time does nothing. -/
@[simp]
theorem Entry.markCow_markCow (entry : Entry) : entry.markCow.markCow = entry.markCow := by
  unfold markCow
  split_ifs <;> simp_all

@[simp]
theorem Entry.markCow_frame (entry : Entry) : entry.markCow.frame = entry.frame := by
  unfold markCow
  split_ifs <;> rfl

/-- A list without repetitions that shares nothing with another list. -/
structure Apart (t x : List ℕ) : Prop where
  nodup : t.Nodup
  disjoint : ∀ f ∈ t, f ∉ x

/-- Freshly allocated frames are apart from whatever is held. -/
theorem Apart.exchange {pool pool' : Pool} {t t' x : List ℕ} (h : Apart t x)
    (hexchange : Exchange pool pool' t t') (hold : pool.Holds (t ++ x)) : Apart t' x := by
  refine ⟨List.nodup_iff_count_le_one.mpr fun f => ?_, fun f hf hx => ?_⟩
  · have hcount := List.nodup_iff_count_le_one.mp h.nodup f
    have honce := hexchange.once hold.of_append_left f
    omega
  · by_cases ht : f ∈ t
    · exact h.disjoint f ht hx
    · have hzero := hexchange.fresh f hf ht
      have hcount := (hold.of_append_right f).1
      have hpos := List.count_pos_iff.mpr hx
      omega

namespace AddressSpace

variable {s s' s'' : AddressSpace} {pool pool' : Pool}

/-- The pages in `done` were marked copy-on-write, and nothing else changed. -/
structure Marked (done : List ℕ) (s s' : AddressSpace) : Prop where
  tables : s'.tables = s.tables
  owned : s'.owned = s.owned
  devices : s'.devices = s.devices
  leaf : ∀ b, UserPage b →
    s'.leaf b = if b ∈ done then (s.leaf b).map Entry.markCow else s.leaf b

namespace Marked

theorem refl (s : AddressSpace) : Marked [] s s :=
  ⟨rfl, rfl, rfl, fun _ _ => rfl⟩

theorem trans {done done' : List ℕ} (h : Marked done s s') (h' : Marked done' s' s'') :
    Marked (done ++ done') s s'' where
  tables := h'.tables.trans h.tables
  owned := h'.owned.trans h.owned
  devices := h'.devices.trans h.devices
  leaf b hb := by
    rw [h'.leaf b hb, h.leaf b hb]
    by_cases hd : b ∈ done
    · rcases hleaf : s.leaf b with _ | entry
      · simp
      · simp [hd]
    · simp [hd]

theorem setLeaf {a : ℕ} {entry : Entry} (ha : UserPage a) (h : s.leaf a = some entry) :
    Marked [a] s (s.setLeaf a entry.markCow) where
  tables := tables_setLeaf s a _
  owned := rfl
  devices := rfl
  leaf b hb := by
    rw [leaf_setLeaf ha hb]
    by_cases heq : b = a
    · rw [if_pos heq, if_pos (List.mem_singleton.mpr heq), heq, h]
      rfl
    · rw [if_neg heq, if_neg fun hmem => heq (List.mem_singleton.mp hmem)]

theorem refs_eq {done : List ℕ} (h : Marked done s s') : s'.refs = s.refs := by
  unfold refs ownedFrames
  rw [h.tables, h.owned]

theorem mappings_eq {done : List ℕ} (h : Marked done s s') : s'.mappings = s.mappings := by
  unfold mappings
  rw [h.owned, h.devices]

/-- A marked page keeps its frame. -/
theorem leaf_frame {done : List ℕ} (h : Marked done s s') {a : ℕ} {entry : Entry}
    (ha : UserPage a) (hleaf : s.leaf a = some entry) :
    ∃ entry', s'.leaf a = some entry' ∧ entry'.frame = entry.frame := by
  rw [h.leaf a ha, hleaf]
  split_ifs
  · exact ⟨entry.markCow, rfl, entry.markCow_frame⟩
  · exact ⟨entry, rfl, rfl⟩

theorem wellFormed {done : List ℕ} (h : Marked done s s') (hwf : s.WellFormed) :
    s'.WellFormed where
  nodup := by
    rw [h.mappings_eq]
    exact hwf.nodup
  user := by
    rw [h.mappings_eq]
    exact hwf.user
  mapped m hm := by
    rw [h.mappings_eq] at hm
    obtain ⟨entry, hleaf, hframe⟩ := hwf.mapped m hm
    obtain ⟨entry', hleaf', hframe'⟩ := h.leaf_frame (hwf.user m hm) hleaf
    exact ⟨entry', hleaf', hframe'.trans hframe⟩
  listed a ha hmapped := by
    rw [h.mappings_eq]
    refine hwf.listed a ha fun hnone => hmapped ?_
    rw [h.leaf a ha, hnone]
    exact ite_self _

end Marked

/-! ## The loop over the owned pages -/

/-- The mappings that the loop still has to take, while the references in `x` are held: the parent
has them all and the child none. -/
structure Forkable (x : List ℕ) (pages : List OwnedMapping) (st : Forking) : Prop where
  nodup : (pages.map OwnedMapping.virtualAddress).Nodup
  frames : (pages.map OwnedMapping.frame).Nodup
  user : ∀ m ∈ pages, UserPage m.virtualAddress
  mapped : ∀ m ∈ pages, ∃ entry, st.parent.leaf m.virtualAddress = some entry ∧
    entry.frame = m.frame
  unmapped : ∀ m ∈ pages, st.child.leaf m.virtualAddress = none
  held : st.pool.Holds (st.child.tables ++ x)
  mem : ∀ m ∈ pages, m.frame ∈ x
  apart : Apart st.child.tables x

/-- The loop took `pages`. -/
structure Taken (pages : List OwnedMapping) (st st' : Forking) : Prop where
  parent : Marked (pages.map OwnedMapping.virtualAddress) st.parent st'.parent
  childOwned : st'.childOwned = st.childOwned ++ pages
  childDevices : st'.childDevices = st.childDevices
  owned : st'.child.owned = st.child.owned
  devices : st'.child.devices = st.child.devices
  leaf : ∀ b, UserPage b → st'.child.leaf b =
    if b ∈ pages.map OwnedMapping.virtualAddress then (st.parent.leaf b).map Entry.markCow
    else st.child.leaf b
  transfer : Transfer st.pool st'.pool st.child.tables
    (st'.child.tables ++ pages.map OwnedMapping.frame)

theorem Taken.refl (st : Forking) : Taken [] st st where
  parent := Marked.refl _
  childOwned := (List.append_nil _).symm
  childDevices := rfl
  owned := rfl
  devices := rfl
  leaf _ _ := rfl
  transfer := by
    rw [List.map_nil, List.append_nil]
    exact Transfer.refl _ _

theorem Taken.trans {pages pages' : List OwnedMapping} {st st' st'' : Forking}
    (h : Taken pages st st') (h' : Taken pages' st' st'') : Taken (pages ++ pages') st st'' where
  parent := by
    rw [List.map_append]
    exact h.parent.trans h'.parent
  childOwned := by rw [h'.childOwned, h.childOwned, List.append_assoc]
  childDevices := h'.childDevices.trans h.childDevices
  owned := h'.owned.trans h.owned
  devices := h'.devices.trans h.devices
  leaf b hb := by
    rw [h'.leaf b hb, h.leaf b hb, h.parent.leaf b hb, List.map_append]
    by_cases hd : b ∈ pages.map OwnedMapping.virtualAddress
    · rcases hleaf : st.parent.leaf b with _ | entry
      · simp [hd]
      · simp [hd]
    · simp [hd]
  transfer := by
    have hrest := h'.transfer.frame (pages.map OwnedMapping.frame)
    rw [List.append_assoc] at hrest
    refine h.transfer.trans (hrest.congr (List.Perm.refl _) ?_)
    rw [List.map_append]
    exact List.perm_append_comm.append_left _

/-- Taking one page. -/
theorem taken_one {m : OwnedMapping} {st : Forking} {entry : Entry} {pool₁ pool₂ : Pool}
    {root : Tree Entry 4} (hm : UserPage m.virtualAddress)
    (hleaf : st.parent.leaf m.virtualAddress = some entry) (hframe : entry.frame = m.frame)
    (hget : st.pool.frameGet m.frame = (true, pool₁))
    (hmap : mapPage 3 st.child.root (m.virtualAddress / pageSize)
      { entry.markCow with frame := m.frame } pool₁ = (.ok root, pool₂)) :
    Taken [m] st { st with
      pool := pool₂
      parent := st.parent.setLeaf m.virtualAddress entry.markCow
      child := { st.child with root }
      childOwned := st.childOwned ++ [m] } := by
  obtain ⟨-, hexchange, hset⟩ := mapPage_root hm hmap
  have hmarked : { entry.markCow with frame := m.frame } = entry.markCow := by
    rw [← hframe, ← entry.markCow_frame]
  refine ⟨Marked.setLeaf hm hleaf, rfl, rfl, rfl, rfl, fun b hb => ?_, ?_⟩
  · refine (hset.leaf_eq hb).trans ?_
    simp only [List.map_cons, List.map_nil, List.mem_singleton, hmarked]
    by_cases heq : b = m.virtualAddress
    · rw [if_pos heq, if_pos heq, heq, hleaf]
      rfl
    · rw [if_neg heq, if_neg heq]
  · have hmapped : Transfer pool₁ pool₂ (st.child.tables ++ [m.frame])
        (tables { st.child with root } ++ [m.frame]) :=
      hexchange.toTransfer.frame [m.frame]
    have htaken : Transfer st.pool pool₁ st.child.tables (st.child.tables ++ [m.frame]) :=
      ((frameGet_true hget).add st.child.tables).congr (List.Perm.refl _) List.perm_append_comm
    exact htaken.trans hmapped

/-- After a page was taken, the others can be. -/
theorem Forkable.tail {x : List ℕ} {m : OwnedMapping} {rest : List OwnedMapping}
    {st st' : Forking} (h : Forkable x (m :: rest) st) (htaken : Taken [m] st st')
    (hapart : Apart st'.child.tables x) : Forkable x rest st' := by
  have hnodup := h.nodup
  rw [List.map_cons, List.nodup_cons] at hnodup
  have hother : ∀ m' ∈ rest, m'.virtualAddress ∉ [m].map OwnedMapping.virtualAddress := by
    intro m' hm' hmem
    rw [List.map_cons, List.map_nil, List.mem_singleton] at hmem
    exact hnodup.1 (List.mem_map.mpr ⟨m', hm', hmem⟩)
  have htail : ∀ m' ∈ rest, m' ∈ m :: rest := fun m' hm' => List.mem_cons_of_mem m hm'
  refine ⟨hnodup.2, ?_, fun m' hm' => h.user m' (htail m' hm'), fun m' hm' => ?_,
    fun m' hm' => ?_, ?_, fun m' hm' => h.mem m' (htail m' hm'), hapart⟩
  · have hframes := h.frames
    rw [List.map_cons, List.nodup_cons] at hframes
    exact hframes.2
  · rw [htaken.parent.leaf _ (h.user m' (htail m' hm')), if_neg (hother m' hm')]
    exact h.mapped m' (htail m' hm')
  · rw [htaken.leaf _ (h.user m' (htail m' hm')), if_neg (hother m' hm')]
    exact h.unmapped m' (htail m' hm')
  · have hheld := htaken.transfer.holds h.held
    rw [List.append_assoc] at hheld
    exact (hheld.congr (List.perm_append_comm.append_left _ |>.trans
      (List.Perm.of_eq (List.append_assoc _ _ _).symm))).of_append_left

/-- The reference count of a page still to be taken does not change. -/
theorem Forkable.refcount_eq {x : List ℕ} {m m' : OwnedMapping} {rest : List OwnedMapping}
    {st st' : Forking} (h : Forkable x (m :: rest) st) (htaken : Taken [m] st st')
    (hapart : Apart st'.child.tables x) (hm' : m' ∈ rest) :
    st'.pool.refcount m'.frame = st.pool.refcount m'.frame := by
  have hcount := htaken.transfer.count m'.frame
  have hx : m'.frame ∈ x := h.mem m' (List.mem_cons_of_mem m hm')
  have hold : m'.frame ∉ st.child.tables := fun hin => h.apart.disjoint _ hin hx
  have hnew : m'.frame ∉ st'.child.tables := fun hin => hapart.disjoint _ hin hx
  have hne : m'.frame ∉ [m].map OwnedMapping.frame := by
    intro hmem
    rw [List.map_cons, List.map_nil, List.mem_singleton] at hmem
    have hframes := h.frames
    rw [List.map_cons, List.nodup_cons] at hframes
    exact hframes.1 (List.mem_map.mpr ⟨m', hm', hmem⟩)
  rw [List.count_append, List.count_eq_zero_of_not_mem hold, List.count_eq_zero_of_not_mem hnew,
    List.count_eq_zero_of_not_mem hne] at hcount
  omega

/-- The loop failed after marking `done`. The references in `leak` are counted, but the child that
is dropped does not have them: some page was refused for want of a free reference after the
references to the pages before it were taken. -/
structure ForkFailed (pages : List OwnedMapping) (st : Forking) (error : AddressSpaceError)
    (st' : Forking) (done : List OwnedMapping) (leak : List ℕ) : Prop where
  reason : error = .outOfFrames
  part : done <+: pages
  parent : Marked (done.map OwnedMapping.virtualAddress) st.parent st'.parent
  leaked : leak ⊆ (st.childOwned ++ done).map OwnedMapping.frame
  transfer : Transfer st.pool st'.pool
    (st.child.tables ++ st.childOwned.map OwnedMapping.frame) (st'.child.refs ++ leak)
  saturated : leak = [] ∨ ∃ pre m post, pages = pre ++ m :: post ∧
    st.pool.refcount m.frame = maxRefcount ∧
    leak = (st.childOwned ++ pre).map OwnedMapping.frame

/-- A page that is held and refused has all the references it can have. -/
theorem refcount_of_refused {pool' : Pool} {f : ℕ} (htracked : pool.tracked f = true)
    (hpos : 0 < pool.refcount f) (h : pool.frameGet f = (false, pool')) :
    pool.refcount f = maxRefcount := by
  unfold Pool.frameGet at h
  split_ifs at h with hok
  · cases h
  · by_contra hne
    exact hok ⟨htracked, by omega, hne⟩

theorem ForkFailed.cons {m : OwnedMapping} {rest : List OwnedMapping} {st st₁ st' : Forking}
    {error : AddressSpaceError} {done : List OwnedMapping} {leak : List ℕ} {x : List ℕ}
    (hforkable : Forkable x (m :: rest) st) (htaken : Taken [m] st st₁)
    (hapart : Apart st₁.child.tables x) (h : ForkFailed rest st₁ error st' done leak) :
    ForkFailed (m :: rest) st error st' (m :: done) leak where
  reason := h.reason
  part := List.cons_prefix_cons.mpr ⟨rfl, h.part⟩
  parent := htaken.parent.trans h.parent
  leaked := by
    have hleak := h.leaked
    rw [htaken.childOwned, List.append_assoc] at hleak
    exact hleak
  transfer := by
    have hfirst := htaken.transfer.frame (st.childOwned.map OwnedMapping.frame)
    refine (hfirst.congr (List.Perm.refl _) ?_).trans h.transfer
    rw [htaken.childOwned, List.map_append, List.append_assoc]
    exact List.perm_append_comm.append_left _
  saturated := by
    rcases h.saturated with hnil | ⟨pre, m', post, hsplit, hcount, hleak⟩
    · exact Or.inl hnil
    · refine Or.inr ⟨m :: pre, m', post, by rw [hsplit, List.cons_append], ?_, ?_⟩
      · rw [← hforkable.refcount_eq htaken hapart (by simp [hsplit])]
        exact hcount
      · rw [hleak, htaken.childOwned, List.append_assoc, List.singleton_append]

/-- The loop takes all pages, or fails for want of memory or references. -/
theorem forkOwned_spec {x : List ℕ} {pages : List OwnedMapping} {st : Forking}
    (h : Forkable x pages st) (howned : st.child.owned = [])
    (hheld : st.pool.Holds (st.child.tables ++ st.childOwned.map OwnedMapping.frame)) :
    (∃ st', forkOwned pages st = .ok st' ∧ Taken pages st st' ∧ Apart st'.child.tables x) ∨
      ∃ error st' done leak, forkOwned pages st = .error (error, st') ∧
        ForkFailed pages st error st' done leak := by
  induction pages generalizing st with
  | nil => exact Or.inl ⟨st, rfl, Taken.refl st, h.apart⟩
  | cons m rest ih =>
    have hm : UserPage m.virtualAddress := h.user m List.mem_cons_self
    obtain ⟨entry, hleaf, hframe⟩ := h.mapped m List.mem_cons_self
    have hmark := Marked.setLeaf hm hleaf
    -- what an early return leaves: the marked page, and the child without the pages taken
    have hnil : (tables st.child ++ st.childOwned.map OwnedMapping.frame) =
        st.child.refs ++ st.childOwned.map OwnedMapping.frame := by
      unfold refs ownedFrames
      rw [howned, List.map_nil, List.append_nil]
    rw [forkOwned, hleaf]
    dsimp only
    rcases hget : st.pool.frameGet m.frame with ⟨got, pool₁⟩
    rcases got with _ | _
    · refine Or.inr ⟨_, _, [m], st.childOwned.map OwnedMapping.frame, rfl, rfl,
        List.cons_prefix_cons.mpr ⟨rfl, List.nil_prefix⟩, hmark, ?_, ?_, ?_⟩
      · exact List.map_subset _ (List.subset_append_left _ _)
      · rw [frameGet_false hget, hnil]
        exact Transfer.refl _ _
      · refine Or.inr ⟨[], m, rest, rfl, ?_, by rw [List.append_nil]⟩
        have hin := h.mem m List.mem_cons_self
        have hx := h.held.of_append_right m.frame
        exact refcount_of_refused (hx.2 hin) (lt_of_lt_of_le (List.count_pos_iff.mpr hin) hx.1) hget
    · dsimp only
      rcases hmap : mapPage 3 st.child.root (m.virtualAddress / pageSize)
        { entry.markCow with frame := m.frame } pool₁ with ⟨error | root, pool₂⟩
      · -- the mapping failed: the page and those before it are given back
        obtain ⟨hexchange, hreason⟩ := mapPage_error hmap
        have hframes : error = .outOfFrames := by
          rcases hreason with hframes | hmapped
          · exact hframes.1
          · exact absurd (h.unmapped m List.mem_cons_self) hmapped.2
        have hgot := (frameGet_true hget).trans (hexchange.toTransfer.frame [m.frame])
        have hfree := freeFrame_exchange (hgot.holds_self (Pool.holds_nil st.pool))
        have hback := (hgot.trans hfree.toTransfer).add
          (st.child.tables ++ st.childOwned.map OwnedMapping.frame)
        rw [List.nil_append] at hback
        refine Or.inr ⟨_, _, [m], [], rfl, hframes, List.cons_prefix_cons.mpr
          ⟨rfl, List.nil_prefix⟩, hmark, List.nil_subset _, ?_, Or.inl rfl⟩
        rw [List.append_nil]
        exact hback
      · have htaken := taken_one hm hleaf hframe hget hmap
        have hexchange := (mapPage_root hm hmap).2.1
        have hgot := frameGet_true hget
        have hapart : Apart (tables { st.child with root }) x := by
          refine h.apart.exchange hexchange ?_
          exact ((hgot.add _).holds_self h.held).of_append_right
        have hforkable := h.tail htaken hapart
        have hheld' := (htaken.transfer.holds hheld).congr
          (List.Perm.of_eq (List.append_assoc _ _ _) |>.trans
            (List.perm_append_comm.append_left _))
        dsimp only
        rcases ih hforkable howned (by rw [List.map_append]; exact hheld') with
          ⟨st', hok, hrest, hapart'⟩ | ⟨error, st', done, leak, herror, hfailed⟩
        · exact Or.inl ⟨st', hok, htaken.trans hrest, hapart'⟩
        · exact Or.inr ⟨error, st', m :: done, leak, herror, hfailed.cons h htaken hapart⟩

/-! ## The loop over the device pages -/

/-- The loop shared the device pages in `pages` with the child. -/
structure Shared (pages : List OwnedMapping) (st st' : Forking) : Prop where
  parent : st'.parent = st.parent
  childOwned : st'.childOwned = st.childOwned
  childDevices : st'.childDevices = st.childDevices ++ pages
  leaf : ∀ b, UserPage b → st'.child.leaf b =
    if b ∈ pages.map OwnedMapping.virtualAddress then st.parent.leaf b else st.child.leaf b
  exchange : Exchange st.pool st'.pool st.child.tables st'.child.tables

theorem Shared.cons {m : OwnedMapping} {pages : List OwnedMapping} {st st' st'' : Forking}
    (h : Shared [m] st st') (h' : Shared pages st' st'') : Shared (m :: pages) st st'' where
  parent := h'.parent.trans h.parent
  childOwned := h'.childOwned.trans h.childOwned
  childDevices := by rw [h'.childDevices, h.childDevices, List.append_assoc, List.singleton_append]
  leaf b hb := by
    rw [h'.leaf b hb, h.leaf b hb, h.parent]
    by_cases hm : b = m.virtualAddress
    · simp [hm]
    · simp [hm]
  exchange := h.exchange.trans h'.exchange

/-- The loop shares all device pages, or fails for want of memory and hands the child everything
that was taken for it. -/
theorem forkDevices_spec {pages : List OwnedMapping} (st : Forking)
    (hnodup : (pages.map OwnedMapping.virtualAddress).Nodup)
    (huser : ∀ m ∈ pages, UserPage m.virtualAddress)
    (hmapped : ∀ m ∈ pages, ∃ entry, st.parent.leaf m.virtualAddress = some entry ∧
      entry.frame = m.frame)
    (hunmapped : ∀ m ∈ pages, st.child.leaf m.virtualAddress = none) :
    (∃ st', forkDevices pages st = .ok st' ∧ Shared pages st st') ∨
      ∃ st', forkDevices pages st = .error (.outOfFrames, st') ∧ st'.parent = st.parent ∧
        st'.child.owned = st.childOwned ∧
        Exchange st.pool st'.pool st.child.tables st'.child.tables := by
  induction pages generalizing st with
  | nil => exact Or.inl ⟨st, rfl, rfl, rfl, (List.append_nil _).symm, fun _ _ => rfl,
      Exchange.refl _ _⟩
  | cons m rest ih =>
    have hm : UserPage m.virtualAddress := huser m List.mem_cons_self
    obtain ⟨entry, hleaf, hframe⟩ := hmapped m List.mem_cons_self
    rw [List.map_cons, List.nodup_cons] at hnodup
    have htail : ∀ m' ∈ rest, m' ∈ m :: rest := fun m' hm' => List.mem_cons_of_mem m hm'
    rw [forkDevices, hleaf]
    dsimp only
    rcases hmap : mapPage 3 st.child.root (m.virtualAddress / pageSize)
      { entry with frame := m.frame } st.pool with ⟨error | root, pool₁⟩
    · obtain ⟨hexchange, hreason⟩ := mapPage_error hmap
      have hframes : error = .outOfFrames := by
        rcases hreason with hframes | hin
        · exact hframes.1
        · exact absurd (hunmapped m List.mem_cons_self) hin.2
      subst hframes
      exact Or.inr ⟨_, rfl, rfl, rfl, hexchange.keep st.child.tables⟩
    · obtain ⟨-, hexchange, hset⟩ := mapPage_root hm hmap
      have hother : ∀ m' ∈ rest, m'.virtualAddress ≠ m.virtualAddress := fun m' hm' heq =>
        hnodup.1 (List.mem_map.mpr ⟨m', hm', heq⟩)
      have hone : Shared [m] st { st with
          pool := pool₁
          child := { st.child with root }
          childDevices := st.childDevices ++ [m] } := by
        refine ⟨rfl, rfl, rfl, fun b hb => ?_, hexchange⟩
        refine (hset.leaf_eq hb).trans ?_
        simp only [List.map_cons, List.map_nil, List.mem_singleton]
        by_cases heq : b = m.virtualAddress
        · rw [if_pos heq, if_pos heq, heq, hleaf, ← hframe]
        · rw [if_neg heq, if_neg heq]
      have hunmapped' : ∀ m' ∈ rest,
          leaf { st.child with root } m'.virtualAddress = none := fun m' hm' => by
        rw [hset.elsewhere _ (huser m' (htail m' hm')) (hother m' hm')]
        exact hunmapped m' (htail m' hm')
      dsimp only
      rcases ih { st with
          pool := pool₁
          child := { st.child with root }
          childDevices := st.childDevices ++ [m] } hnodup.2
          (fun m' hm' => huser m' (htail m' hm')) (fun m' hm' => hmapped m' (htail m' hm'))
          hunmapped' with ⟨st', hok, hrest⟩ | ⟨st', herror, hparent, howned, hrest⟩
      · exact Or.inl ⟨st', hok, hone.cons hrest⟩
      · exact Or.inr ⟨st', herror, hparent, howned, hexchange.trans hrest⟩

/-! ## The whole operation -/

section ForkCow

variable {child : AddressSpace} {x : List ℕ}

/-- The pages of a well-formed space can all be taken for a new child. -/
theorem forkable_owned (hwf : s.WellFormed) (hframes : s.ownedFrames.Nodup)
    (hx : s.ownedFrames ⊆ x) {pool : Pool} (hheld : pool.Holds (child.tables ++ x))
    (hapart : Apart child.tables x) (hleaf : ∀ a, child.leaf a = none) :
    Forkable x s.owned { pool, parent := s, child, childOwned := [] } where
  nodup := by
    have := hwf.nodup
    unfold mappings at this
    rw [List.map_append] at this
    exact this.of_append_left
  frames := hframes
  user m hm := hwf.user m (List.mem_append_left _ hm)
  mapped m hm := hwf.mapped m (List.mem_append_left _ hm)
  unmapped m _ := hleaf m.virtualAddress
  held := hheld
  mem m hm := hx (List.mem_map_of_mem hm)
  apart := hapart

/-- A new root table is apart from whatever is held. -/
theorem new_apart (hold : pool.Holds x) (h : new pool = (.ok child, pool')) :
    Apart child.tables x ∧ pool'.Holds (child.tables ++ x) ∧ child.refs = child.tables := by
  obtain ⟨hexchange, -, howned, -⟩ := new_ok h
  have hrefs : child.refs = child.tables := by
    unfold refs ownedFrames
    rw [howned, List.map_nil, List.append_nil]
  rw [hrefs] at hexchange
  have hnil : Apart [] x := ⟨List.nodup_nil, fun f hf => absurd hf List.not_mem_nil⟩
  exact ⟨hnil.exchange hexchange (by rwa [List.nil_append]), (hexchange.add x).holds_self hold, hrefs⟩

/-- What a successful `fork_cow` gives: the child has the same pages, each with one more reference,
and writable pages are copy-on-write on both sides. -/
structure ForkOk (s s' child : AddressSpace) (pool pool' : Pool) (x : List ℕ) : Prop where
  parent : Marked (s.owned.map OwnedMapping.virtualAddress) s s'
  owned : child.owned = s.owned
  devices : child.devices = s.devices
  leaf : ∀ b, UserPage b → child.leaf b = s'.leaf b
  transfer : Transfer pool pool' [] child.refs
  apart : Apart child.tables x

/-- What a failed `fork_cow` leaves: the pages in `done` are marked, and references in `leak` to some
of them are lost. -/
structure ForkError (s s' : AddressSpace) (pool pool' : Pool) (error : AddressSpaceError)
    (done : List OwnedMapping) (leak : List ℕ) : Prop where
  reason : error = .outOfFrames
  part : done <+: s.owned
  parent : Marked (done.map OwnedMapping.virtualAddress) s s'
  leaked : leak ⊆ done.map OwnedMapping.frame
  transfer : Transfer pool pool' [] leak
  saturated : s.devices = [] → leak = [] ∨ ∃ pre m post, s.owned = pre ++ m :: post ∧
    pool.refcount m.frame = maxRefcount ∧ leak = pre.map OwnedMapping.frame

/-- Dropping the unfinished child leaves what it does not have. -/
theorem drop_leak (child : AddressSpace) (leak : List ℕ) (hold : pool.Holds (child.refs ++ leak)) :
    Transfer pool (child.drop pool) (child.refs ++ leak) leak := by
  have := (drop_exchange hold.of_append_left).toTransfer.frame leak
  rwa [List.nil_append] at this

/-- A loop that could not take a page leaves what a failed `fork_cow` does. -/
theorem ForkFailed.forkError {pool₁ : Pool} {st : Forking} {error : AddressSpaceError}
    {done : List OwnedMapping} {leak : List ℕ}
    (h : ForkFailed s.owned { pool := pool₁, parent := s, child, childOwned := [] } error st done leak)
    (hx : s.ownedFrames ⊆ x) (hapart : Apart child.tables x)
    (hchild : Exchange pool pool₁ [] child.tables) :
    ForkError s st.parent pool (st.child.drop st.pool) error done leak where
  reason := h.reason
  part := h.part
  parent := h.parent
  leaked := h.leaked
  transfer := by
    have htransfer := h.transfer
    rw [List.map_nil, List.append_nil] at htransfer
    have hall := hchild.toTransfer.trans htransfer
    exact hall.trans (drop_leak _ _ (hall.holds_self (Pool.holds_nil pool)))
  saturated _ := by
    rcases h.saturated with hnil | ⟨pre, m, post, hsplit, hcount, hleak⟩
    · exact Or.inl hnil
    · refine Or.inr ⟨pre, m, post, hsplit, ?_, by rw [hleak, List.nil_append]⟩
      -- the new root table is another frame than the page
      have hm : m.frame ∈ x := hx (List.mem_map_of_mem (hsplit ▸ by simp))
      have hroot : m.frame ∉ child.tables := fun hin => hapart.disjoint _ hin hm
      have hsame := hchild.count m.frame
      rw [List.count_eq_zero_of_not_mem hroot, List.count_nil] at hsame
      rw [← hcount]
      exact hsame.symm

/-- A fork between its loops: all owned pages are taken, and no device page is shared. -/
structure PagesTaken (s : AddressSpace) (pool : Pool) (x : List ℕ) (st : Forking) : Prop where
  parent : Marked (s.owned.map OwnedMapping.virtualAddress) s st.parent
  owned : st.child.owned = []
  childOwned : st.childOwned = s.owned
  childDevices : st.childDevices = []
  leaf : ∀ b, UserPage b → st.child.leaf b =
    if b ∈ s.owned.map OwnedMapping.virtualAddress then st.parent.leaf b else none
  transfer : Transfer pool st.pool [] (st.child.tables ++ s.ownedFrames)
  held : st.pool.Holds (st.child.tables ++ s.ownedFrames ++ x)
  apart : Apart st.child.tables x

/-- After the first loop, with room for the list of devices. -/
theorem Taken.pagesTaken {pool₁ pool₂ : Pool} {st : Forking}
    (h : Taken s.owned { pool := pool₁, parent := s, child, childOwned := [] } st)
    (howned : child.owned = []) (hempty : ∀ a, child.leaf a = none)
    (hchild : Exchange pool pool₁ [] child.tables) (hold : pool.Holds x)
    (hapart : Apart st.child.tables x) {n : ℕ} {room : Bool}
    (hreserve : st.pool.tryReserve n = (room, pool₂)) :
    PagesTaken s pool x { st with pool := pool₂ } := by
  have hkept := (tryReserve_exchange hreserve (a := st.child.tables ++ s.ownedFrames)).toTransfer
  refine ⟨h.parent, h.owned.trans howned, by rw [h.childOwned, List.nil_append], h.childDevices,
    fun b hb => ?_, (hchild.toTransfer.trans h.transfer).trans hkept,
    hkept.holds (h.transfer.holds ((hchild.add x).holds_self hold)), hapart⟩
  rw [h.leaf b hb, h.parent.leaf b hb]
  split_ifs
  · rfl
  · exact hempty b

section PagesTaken

variable {st st' : Forking}

theorem PagesTaken.childFrames (h : PagesTaken s pool x st) :
    st.childOwned.map OwnedMapping.frame = s.ownedFrames :=
  congrArg _ h.childOwned

/-- With no room for the list of devices all pages are lost. -/
theorem PagesTaken.forkError_reserve (h : PagesTaken s pool x st) (hdevices : s.devices ≠ []) :
    ForkError s st.parent pool (st.child.drop st.pool) .outOfFrames s.owned s.ownedFrames := by
  have hrefs : st.child.refs = st.child.tables := by
    unfold refs ownedFrames
    rw [h.owned, List.map_nil, List.append_nil]
  have hdropped := drop_leak st.child s.ownedFrames
    (by rw [hrefs]; exact h.transfer.holds_self (Pool.holds_nil pool))
  rw [hrefs] at hdropped
  exact ⟨rfl, List.prefix_rfl, h.parent, List.Subset.refl _, h.transfer.trans hdropped,
    fun hnone => absurd hnone hdevices⟩

/-- A device page that cannot be mapped: the child gives everything back. -/
theorem PagesTaken.forkError_devices (h : PagesTaken s pool x st) (hparent : st'.parent = st.parent)
    (howned : st'.child.owned = st.childOwned)
    (hexchange : Exchange st.pool st'.pool st.child.tables st'.child.tables) :
    ForkError s st'.parent pool (st'.child.drop st'.pool) .outOfFrames s.owned [] := by
  have hframes : st'.child.ownedFrames = s.ownedFrames := by
    unfold ownedFrames
    rw [howned]
    exact h.childFrames
  have hall : Transfer pool st'.pool [] (st'.child.refs ++ []) := by
    unfold refs
    rw [hframes, List.append_nil]
    exact h.transfer.trans (hexchange.toTransfer.frame _)
  refine ⟨rfl, List.prefix_rfl, ?_, List.nil_subset _,
    hall.trans (drop_leak _ _ (hall.holds_self (Pool.holds_nil pool))), fun _ => Or.inl rfl⟩
  rw [hparent]
  exact h.parent

/-- A page of the child is an owned page, a device page, or not mapped on either side. -/
theorem PagesTaken.leaf_eq (h : PagesTaken s pool x st) (hwf : s.WellFormed)
    (hshared : Shared s.devices st st') {b : ℕ} (hb : UserPage b) :
    st'.child.leaf b = st.parent.leaf b := by
  rw [hshared.leaf b hb, h.leaf b hb]
  by_cases hdev : b ∈ s.devices.map OwnedMapping.virtualAddress
  · rw [if_pos hdev]
  · rw [if_neg hdev]
    by_cases hown : b ∈ s.owned.map OwnedMapping.virtualAddress
    · rw [if_pos hown]
    · rw [if_neg hown, h.parent.leaf b hb, if_neg hown]
      by_contra hmapped
      obtain ⟨m, hm, rfl⟩ := hwf.listed b hb fun hnone => hmapped hnone.symm
      rcases List.mem_append.mp hm with hin | hin
      · exact hown (List.mem_map_of_mem hin)
      · exact hdev (List.mem_map_of_mem hin)

/-- Everything was taken. -/
theorem PagesTaken.forkOk (h : PagesTaken s pool x st) (hwf : s.WellFormed)
    (hshared : Shared s.devices st st') :
    ForkOk s st'.parent { st'.child with owned := st'.childOwned, devices := st'.childDevices } pool
      st'.pool x where
  parent := by
    rw [hshared.parent]
    exact h.parent
  owned := hshared.childOwned.trans h.childOwned
  devices := hshared.childDevices.trans (by rw [h.childDevices]; rfl)
  leaf b hb := by
    rw [hshared.parent]
    exact h.leaf_eq hwf hshared hb
  transfer := by
    have hframes : st'.childOwned.map OwnedMapping.frame = s.ownedFrames := by
      rw [hshared.childOwned]
      exact h.childFrames
    unfold refs ownedFrames
    rw [hframes]
    exact h.transfer.trans (hshared.exchange.toTransfer.frame _)
  apart := by
    have hperm : (st.child.tables ++ s.ownedFrames ++ x).Perm (st.child.tables ++ x ++ s.ownedFrames) := by
      rw [List.append_assoc, List.append_assoc]
      exact List.perm_append_comm.append_left _
    exact h.apart.exchange hshared.exchange (h.held.congr hperm).of_append_left

/-- The second loop, on the pages of a well-formed space. -/
theorem PagesTaken.devices_spec (h : PagesTaken s pool x st) (hwf : s.WellFormed) :
    (∃ st', forkDevices s.devices st = .ok st' ∧ Shared s.devices st st') ∨
      ∃ st', forkDevices s.devices st = .error (.outOfFrames, st') ∧ st'.parent = st.parent ∧
        st'.child.owned = st.childOwned ∧
        Exchange st.pool st'.pool st.child.tables st'.child.tables := by
  have hnodup := hwf.nodup
  unfold mappings at hnodup
  rw [List.map_append] at hnodup
  have huser : ∀ m ∈ s.devices, UserPage m.virtualAddress := fun m hm =>
    hwf.user m (List.mem_append_right _ hm)
  have hother : ∀ m ∈ s.devices, m.virtualAddress ∉ s.owned.map OwnedMapping.virtualAddress :=
    fun m hm hin => (List.disjoint_of_nodup_append hnodup) hin (List.mem_map_of_mem hm)
  refine forkDevices_spec st hnodup.of_append_right huser (fun m hm => ?_) fun m hm => ?_
  · rw [h.parent.leaf _ (huser m hm), if_neg (hother m hm)]
    exact hwf.mapped m (List.mem_append_right _ hm)
  · rw [h.leaf _ (huser m hm), if_neg (hother m hm)]

end PagesTaken

theorem forkCow_spec (hwf : s.WellFormed) (hframes : s.ownedFrames.Nodup)
    (hx : s.ownedFrames ⊆ x) (hold : pool.Holds x) :
    (∃ child pool' s', s.forkCow pool = (.ok child, pool', s') ∧
        ForkOk s s' child pool pool' x) ∨
      ∃ error pool' s' done leak, s.forkCow pool = (.error error, pool', s') ∧
        ForkError s s' pool pool' error done leak := by
  unfold forkCow
  rcases hnew : new pool with ⟨error | child, pool₁⟩
  · obtain ⟨hexchange, hreason⟩ := new_error hnew
    exact Or.inr ⟨_, _, _, [], [], rfl, hreason, List.nil_prefix, Marked.refl s, List.nil_subset _,
      hexchange.toTransfer, fun _ => Or.inl rfl⟩
  obtain ⟨hnewex, hempty, hchildOwned, -⟩ := new_ok hnew
  obtain ⟨hapart, -, hrefs⟩ := new_apart hold hnew
  dsimp only
  rcases hreserve : pool₁.tryReserve s.owned.length with ⟨_ | _, pool₂⟩
  · have hkept : Exchange pool₁ pool₂ child.refs child.refs := tryReserve_exchange hreserve
    have htaken := hnewex.trans hkept
    have hdropped := htaken.trans (drop_exchange (htaken.holds_self (Pool.holds_nil pool)))
    exact Or.inr ⟨_, _, _, [], [], rfl, rfl, List.nil_prefix, Marked.refl s, List.nil_subset _,
      hdropped.toTransfer, fun _ => Or.inl rfl⟩
  dsimp only
  have hkept : Exchange pool₁ pool₂ child.tables child.tables := tryReserve_exchange hreserve
  have hchild : Exchange pool pool₂ [] child.tables := by
    rw [hrefs] at hnewex
    exact hnewex.trans hkept
  have hforkable := forkable_owned hwf hframes hx ((hchild.add x).holds_self hold) hapart hempty
  have hheld₂ : pool₂.Holds (child.tables ++ ([] : List OwnedMapping).map OwnedMapping.frame) := by
    rw [List.map_nil, List.append_nil]
    exact hchild.holds_self (Pool.holds_nil pool)
  rcases forkOwned_spec hforkable hchildOwned hheld₂ with
    ⟨st, hok, htaken, hapart'⟩ | ⟨error, st, done, leak, herror, hfailed⟩
  rotate_left
  · rw [herror]
    exact Or.inr ⟨_, _, _, done, leak, rfl, hfailed.forkError hx hapart hchild⟩
  rw [hok]
  dsimp only
  rcases hreserve' : st.pool.tryReserve s.devices.length with ⟨_ | _, pool₃⟩
  · have hpages := htaken.pagesTaken hchildOwned hempty hchild hold hapart' hreserve'
    refine Or.inr ⟨_, _, _, s.owned, s.ownedFrames, rfl, hpages.forkError_reserve fun hnone => ?_⟩
    rw [hnone] at hreserve'
    unfold Pool.tryReserve at hreserve'
    simp at hreserve'
  dsimp only
  have hpages := htaken.pagesTaken hchildOwned hempty hchild hold hapart' hreserve'
  rcases hpages.devices_spec hwf with
    ⟨st', hok', hshared⟩ | ⟨st', herror', hparent, howned, hexchange⟩
  · rw [hok']
    exact Or.inl ⟨_, _, _, rfl, hpages.forkOk hwf hshared⟩
  · rw [herror']
    exact Or.inr ⟨_, _, _, s.owned, [], rfl, hpages.forkError_devices hparent howned hexchange⟩

end ForkCow

end AddressSpace

end SaeOS.Paging
