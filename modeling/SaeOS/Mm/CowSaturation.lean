import SaeOS.Mm.CowConservation

/-!
# A run that loses a reference

A process with two pages forks again and again, and every child unmaps the first page: its count
stays one, and that of the second page grows to the largest possible one. The next fork takes the
first page, is refused the second, and loses the reference to the first.

The run has more than a hundred thousand steps, so it is not evaluated but followed by an invariant
(`Rounds`). For that, the lemmas of the first section say that operations succeed as long as the pool
has frames left.
-/

namespace SaeOS.Paging

open Frame RadixTree

/-! ## Pools with frames left -/

/-- At least `n` allocations will succeed, and every reservation. -/
structure Supply (n : ℕ) (pool : Pool) : Prop where
  reservations : pool.reservations = []
  frames : ∃ first count, n ≤ count ∧
    pool.allocations = (List.range' first count).map (fun j => some (j * pageSize, fun _ => 0)) ∧
    ∀ j ≥ first, pool.refcount (j * pageSize) = 0 ∧ pool.tracked (j * pageSize) = true

/-- No allocation was made, and no free frame got a reference. -/
structure Quiet (pool pool' : Pool) : Prop where
  reservations : pool'.reservations = pool.reservations
  allocations : pool'.allocations = pool.allocations
  tracked : pool'.tracked = pool.tracked
  free : ∀ f, pool.refcount f = 0 → pool'.refcount f = 0

namespace Quiet

variable {pool pool' pool'' : Pool}

theorem refl (pool : Pool) : Quiet pool pool :=
  ⟨rfl, rfl, rfl, fun _ h => h⟩

theorem trans (h : Quiet pool pool') (h' : Quiet pool' pool'') : Quiet pool pool'' :=
  ⟨h'.reservations.trans h.reservations, h'.allocations.trans h.allocations,
    h'.tracked.trans h.tracked, fun f hf => h'.free f (h.free f hf)⟩

theorem freeFrame (pool : Pool) (f : ℕ) : Quiet pool (pool.freeFrame f) := by
  unfold Pool.freeFrame
  split_ifs with hbad hone
  · exact ⟨rfl, rfl, rfl, fun _ hf => hf⟩
  · refine ⟨rfl, rfl, rfl, fun g hg => ?_⟩
    by_cases heq : g = f
    · subst heq
      simp
    · simpa [heq] using hg
  · refine ⟨rfl, rfl, rfl, fun g hg => ?_⟩
    have hne : g ≠ f := fun heq => hbad (Or.inr (heq ▸ hg))
    simpa [hne] using hg

theorem frameGet {f : ℕ} {got : Bool} (h : pool.frameGet f = (got, pool')) : Quiet pool pool' := by
  unfold Pool.frameGet at h
  split_ifs at h with hok
  · cases h
    refine ⟨rfl, rfl, rfl, fun g hg => ?_⟩
    have hne : g ≠ f := fun heq => hok.2.1 (heq ▸ hg)
    simpa [hne] using hg
  · cases h
    exact refl _

end Quiet

namespace Supply

variable {pool pool' : Pool} {n m : ℕ}

theorem mono (h : Supply n pool) (hle : m ≤ n) : Supply m pool := by
  obtain ⟨hreservations, first, count, hcount, hframes⟩ := h
  exact ⟨hreservations, first, count, by omega, hframes⟩

theorem quiet (h : Supply n pool) (hquiet : Quiet pool pool') : Supply n pool' := by
  obtain ⟨hreservations, first, count, hcount, hallocations, hfree⟩ := h
  refine ⟨hquiet.reservations.trans hreservations, first, count, hcount,
    hquiet.allocations.trans hallocations, fun j hj => ⟨hquiet.free _ (hfree j hj).1, ?_⟩⟩
  rw [hquiet.tracked]
  exact (hfree j hj).2

/-- An allocation takes one frame of the supply. -/
theorem allocFrame (h : Supply (n + 1) pool) :
    ∃ f pool', pool.allocFrame = (some f, pool') ∧ f % pageSize = 0 ∧ Supply n pool' := by
  obtain ⟨hreservations, first, count, hcount, hallocations, hfree⟩ := h
  obtain ⟨count, rfl⟩ : ∃ c, count = c + 1 := ⟨count - 1, by omega⟩
  rw [List.range'_succ, List.map_cons] at hallocations
  unfold Pool.allocFrame
  rw [hallocations]
  dsimp only
  rw [if_pos (hfree first (Nat.le_refl _))]
  refine ⟨_, _, rfl, Nat.mul_mod_left _ _, hreservations, first + 1, count, by omega, rfl,
    fun j hj => ?_⟩
  have hne : j * pageSize ≠ first * pageSize := by
    unfold pageSize
    omega
  simpa [hne] using hfree j (by omega)

theorem fill (h : Supply n pool) (f : ℕ) (contents : ℕ → UInt8) : Supply n (pool.fill f contents) :=
  h.quiet ⟨rfl, rfl, rfl, fun _ hf => hf⟩

theorem allocFrameZeroed (h : Supply (n + 1) pool) :
    ∃ f pool', pool.allocFrameZeroed = (some f, pool') ∧ Supply n pool' := by
  obtain ⟨f, pool', halloc, -, hsupply⟩ := h.allocFrame
  refine ⟨f, pool'.fill f fun _ => 0, ?_, hsupply.fill f _⟩
  unfold Pool.allocFrameZeroed
  rw [halloc]

theorem tryReserve (h : Supply n pool) (count : ℕ) : pool.tryReserve count = (true, pool) := by
  unfold Pool.tryReserve
  split_ifs
  · rfl
  · rw [h.reservations]

/-- A page that is not mapped can be, at the price of a frame for every missing table. -/
theorem mapPage {page : ℕ} {l : ℕ} {t : Tree Entry (l + 1)} (h : Supply (n + l) pool)
    (entry : Entry) (hnone : t.lookup tableSlots (l + 1) page = none) :
    ∃ t' pool', Paging.mapPage l t page entry pool = (.ok t', pool') ∧ Supply n pool' := by
  induction l generalizing n pool with
  | zero =>
    rw [Paging.mapPage]
    rcases hslot : t.table.slot (page / tableSlots ^ 0 % tableSlots) with _ | sub
    · exact ⟨_, _, rfl, h⟩
    · rw [Tree.lookup_of_slot_some hslot] at hnone
      cases hnone
  | succ l ih =>
    rw [Paging.mapPage]
    rcases hslot : t.table.slot (page / tableSlots ^ (l + 1) % tableSlots) with _ | sub
    · obtain ⟨f, pool₁, halloc, hsupply⟩ := Supply.allocFrameZeroed (n := n + l) h
      obtain ⟨t', pool₂, hmap, hsupply'⟩ := ih hsupply (Tree.lookup_empty f page)
      dsimp only
      rw [halloc]
      dsimp only
      rw [hmap]
      exact ⟨_, _, rfl, hsupply'⟩
    · rw [Tree.lookup_of_slot_some hslot] at hnone
      obtain ⟨t', pool₁, hmap, hsupply⟩ := ih (h.mono (m := n + l) (by omega)) hnone
      dsimp only
      rw [hmap]
      exact ⟨_, _, rfl, hsupply⟩

end Supply

namespace AddressSpace

variable {s : AddressSpace} {pool pool' : Pool} {n : ℕ}

theorem new_supply (h : Supply (n + 1) pool) :
    ∃ s pool', new pool = (.ok s, pool') ∧ Supply n pool' := by
  obtain ⟨f, pool', halloc, hsupply⟩ := h.allocFrameZeroed
  unfold new
  rw [halloc]
  exact ⟨_, _, rfl, hsupply⟩

/-- Backing a page takes a frame for the page and up to three for tables. -/
theorem mapFresh_supply {a : ℕ} {flags : PageFlags} (contents : ℕ → UInt8)
    (h : Supply (n + 3 + 1) pool) (hvalid : validateUserMapping a 0 flags = .ok ())
    (hnone : s.leaf a = none) :
    ∃ pool' s', s.mapFresh a flags contents pool = (.ok (), pool', s') ∧ Supply n pool' := by
  obtain ⟨f, pool₁, halloc, haligned, hsupply⟩ := h.allocFrame
  have hvalid' : validateUserMapping a f flags = .ok () := by
    unfold validateUserMapping at hvalid ⊢
    simpa [haligned] using hvalid
  obtain ⟨root, pool₂, hmap, hsupply'⟩ := (hsupply.fill f contents).mapPage
    { frame := f, flags } hnone
  unfold mapFresh mapOwned map
  rw [halloc]
  dsimp only
  rw [(hsupply.fill f contents).tryReserve, hvalid']
  dsimp only
  rw [hmap]
  exact ⟨_, _, rfl, hsupply'⟩

theorem unmapPage_quiet {l : ℕ} (t : Tree Entry (l + 1)) (page : ℕ) (pool : Pool) :
    Quiet pool (unmapPage l t page pool).2 := by
  induction l generalizing pool with
  | zero =>
    rw [unmapPage]
    split <;> exact Quiet.refl _
  | succ l ih =>
    rw [unmapPage]
    split
    · exact Quiet.refl _
    · rename_i sub hslot
      have hsub := ih sub pool
      split
      · rename_i error pool₁ heq
        rw [heq] at hsub
        exact hsub
      · rename_i entry sub' pool₁ heq
        rw [heq] at hsub
        split_ifs
        · exact hsub.trans (Quiet.freeFrame _ _)
        · exact hsub

theorem unmapFree_quiet (s : AddressSpace) (a : ℕ) (pool : Pool) :
    Quiet pool (s.unmapFree a pool).2.1 := by
  have hunmap : Quiet pool (s.unmapMapping a pool).2.1 := by
    unfold unmapMapping
    split
    · exact Quiet.refl _
    · split
      · exact Quiet.refl _
      · have hpage := unmapPage_quiet s.root (a / pageSize) pool
        split
        · rename_i error pool₁ heq
          rw [heq] at hpage
          exact hpage
        · rename_i entry root pool₁ heq
          rw [heq] at hpage
          exact hpage
  unfold unmapFree
  rcases hr : s.unmapMapping a pool with ⟨error | u, pool₁, s₁⟩
  · rw [hr] at hunmap
    exact hunmap
  · rw [hr] at hunmap
    dsimp only
    split_ifs
    · exact hunmap.trans (Quiet.freeFrame _ _)
    · exact hunmap

/-- Pages that have room for another reference can be taken. -/
theorem forkOwned_supply {x : List ℕ} {pages : List OwnedMapping} {st : Forking}
    (h : Forkable x pages st) (hsupply : Supply (n + 3 * pages.length) st.pool)
    (hroom : ∀ m ∈ pages, st.pool.refcount m.frame ≠ maxRefcount) :
    ∃ st', forkOwned pages st = .ok st' ∧ Supply n st'.pool := by
  induction pages generalizing st with
  | nil => exact ⟨st, rfl, hsupply⟩
  | cons m rest ih =>
    have hm : UserPage m.virtualAddress := h.user m List.mem_cons_self
    obtain ⟨entry, hleaf, hframe⟩ := h.mapped m List.mem_cons_self
    have hin := h.mem m List.mem_cons_self
    have hx := h.held.of_append_right m.frame
    have hpos := lt_of_lt_of_le (List.count_pos_iff.mpr hin) hx.1
    rcases hget : st.pool.frameGet m.frame with ⟨_ | _, pool₁⟩
    · exact absurd (refcount_of_refused (hx.2 hin) hpos hget) (hroom m List.mem_cons_self)
    obtain ⟨root, pool₂, hmap, hsupply'⟩ :=
      ((hsupply.mono (by rw [List.length_cons]; omega)).quiet (Quiet.frameGet hget) :
        Supply (n + 3 * rest.length + 3) pool₁).mapPage
        { entry.markCow with frame := m.frame } (h.unmapped m List.mem_cons_self)
    have htaken := taken_one hm hleaf hframe hget hmap
    have hapart : Apart (tables { st.child with root }) x := by
      refine h.apart.exchange (mapPage_root hm hmap).2.1 ?_
      exact (((frameGet_true hget).add _).holds_self h.held).of_append_right
    rw [forkOwned, hleaf]
    dsimp only
    rw [hget]
    dsimp only
    rw [hmap]
    dsimp only
    refine ih (h.tail htaken hapart) hsupply' fun m' hm' => ?_
    rw [h.refcount_eq htaken hapart hm']
    exact hroom m' (List.mem_cons_of_mem m hm')

/-- A space without device pages forks if all its pages have room for another reference. -/
theorem forkCow_supply {x : List ℕ} (hwf : s.WellFormed) (hframes : s.ownedFrames.Nodup)
    (hx : s.ownedFrames ⊆ x) (hold : pool.Holds x) (hdevices : s.devices = [])
    (h : Supply (n + 3 * s.owned.length + 1) pool)
    (hroom : ∀ m ∈ s.owned, pool.refcount m.frame ≠ maxRefcount) :
    ∃ child pool' s', s.forkCow pool = (.ok child, pool', s') ∧ Supply n pool' := by
  obtain ⟨child, pool₁, hnew, hsupply⟩ := new_supply h
  obtain ⟨hexchange, hempty, -, -⟩ := new_ok hnew
  obtain ⟨hapart, hheld, hrefs⟩ := new_apart hold hnew
  have hforkable := forkable_owned hwf hframes hx hheld hapart hempty
  have hroom' : ∀ m ∈ s.owned, pool₁.refcount m.frame ≠ maxRefcount := by
    intro m hm
    have hnot : m.frame ∉ child.refs := fun hin =>
      hapart.disjoint _ (hrefs ▸ hin) (hx (List.mem_map_of_mem hm))
    have hcount := hexchange.count m.frame
    rw [List.count_nil, List.count_eq_zero_of_not_mem hnot] at hcount
    have := hroom m hm
    omega
  obtain ⟨st, hok, hsupply'⟩ := forkOwned_supply hforkable hsupply hroom'
  unfold forkCow
  rw [hnew]
  dsimp only
  rw [hsupply.tryReserve]
  dsimp only
  rw [hok]
  dsimp only
  rw [hsupply'.tryReserve, hdevices]
  exact ⟨_, _, _, rfl, hsupply'⟩

/-- The loop over the pages stops at the first page without room. -/
theorem forkOwned_append (pages rest : List OwnedMapping) (st : Forking) :
    forkOwned (pages ++ rest) st =
      match forkOwned pages st with
      | .error e => .error e
      | .ok st => forkOwned rest st := by
  induction pages generalizing st with
  | nil => rfl
  | cons m pages ih =>
    rw [List.cons_append, forkOwned, forkOwned]
    rcases st.parent.leaf m.virtualAddress with _ | entry
    · rfl
    · dsimp only
      rcases st.pool.frameGet m.frame with ⟨_ | _, pool₁⟩
      · rfl
      · dsimp only
        rcases mapPage 3 st.child.root (m.virtualAddress / pageSize)
          { entry.markCow with frame := m.frame } pool₁ with ⟨error | root, pool₂⟩
        · rfl
        · exact ih _

theorem Forkable.take {x : List ℕ} {pages rest : List OwnedMapping} {st : Forking}
    (h : Forkable x (pages ++ rest) st) : Forkable x pages st where
  nodup := by
    have := h.nodup
    rw [List.map_append] at this
    exact this.of_append_left
  frames := by
    have := h.frames
    rw [List.map_append] at this
    exact this.of_append_left
  user m hm := h.user m (List.mem_append_left _ hm)
  mapped m hm := h.mapped m (List.mem_append_left _ hm)
  unmapped m hm := h.unmapped m (List.mem_append_left _ hm)
  held := h.held
  mem m hm := h.mem m (List.mem_append_left _ hm)
  apart := h.apart

/-- A space with two pages of which the second is refused loses the reference to the first. -/
theorem forkCow_refused {x : List ℕ} {m m' : OwnedMapping} (hwf : s.WellFormed)
    (hframes : s.ownedFrames.Nodup) (hx : s.ownedFrames ⊆ x) (hold : pool.Holds x)
    (howned : s.owned = [m, m']) (h : Supply 4 pool)
    (hroom : pool.refcount m.frame ≠ maxRefcount) (hfull : pool.refcount m'.frame = maxRefcount) :
    ∃ pool' s', s.forkCow pool = (.error .outOfFrames, pool', s') ∧ s'.owned = s.owned ∧
      pool'.refcount m.frame = pool.refcount m.frame + 1 := by
  obtain ⟨child, pool₁, hnew, hsupply⟩ := new_supply (n := 3) h
  obtain ⟨hexchange, hempty, hchildOwned, -⟩ := new_ok hnew
  obtain ⟨hapart, hheld, hrefs⟩ := new_apart hold hnew
  have hforkable := forkable_owned hwf hframes hx hheld hapart hempty
  have hcounts : ∀ p ∈ s.owned, pool₁.refcount p.frame = pool.refcount p.frame := by
    intro p hp
    have hnot : p.frame ∉ child.refs := fun hin =>
      hapart.disjoint _ (hrefs ▸ hin) (hx (List.mem_map_of_mem hp))
    have hcount := hexchange.count p.frame
    rw [List.count_nil, List.count_eq_zero_of_not_mem hnot] at hcount
    omega
  rw [howned] at hforkable hcounts
  -- the first page alone can be taken
  have hboth : Forkable x ([m] ++ [m']) { pool := pool₁, parent := s, child, childOwned := [] } :=
    hforkable
  have hfirst := hboth.take
  have hroom₁ : ∀ p ∈ [m], pool₁.refcount p.frame ≠ maxRefcount := by
    intro p hp
    rw [List.mem_singleton.mp hp, hcounts m (by simp)]
    exact hroom
  obtain ⟨st, hok, -⟩ := forkOwned_supply (n := 0) hfirst hsupply hroom₁
  have hheld₁ : pool₁.Holds (child.tables ++ ([] : List OwnedMapping).map OwnedMapping.frame) := by
    rw [List.map_nil, List.append_nil]
    exact hheld.of_append_left
  rcases forkOwned_spec hfirst hchildOwned hheld₁ with
    ⟨st', hok', htaken, hapart'⟩ | ⟨error, st', done, leak, herror, -⟩
  rotate_left
  · rw [hok] at herror
    cases herror
  rw [hok] at hok'
  cases hok'
  -- the second page is refused
  have hfull' : st.pool.refcount m'.frame = maxRefcount := by
    rw [hforkable.refcount_eq htaken hapart' (by simp), hcounts m' (by simp)]
    exact hfull
  have hrefused : st.pool.frameGet m'.frame = (false, st.pool) := by
    unfold Pool.frameGet
    rw [if_neg fun hok => hok.2.2 hfull']
  obtain ⟨entry, hleaf, -⟩ := (hforkable.tail htaken hapart').mapped m' (by simp)
  have hstop : forkOwned [m, m'] { pool := pool₁, parent := s, child, childOwned := [] } =
      .error (.outOfFrames,
        { st with parent := st.parent.setLeaf m'.virtualAddress entry.markCow }) := by
    have hsplit := forkOwned_append [m] [m']
      { pool := pool₁, parent := s, child, childOwned := [] }
    rw [hok] at hsplit
    refine hsplit.trans ?_
    dsimp only
    rw [forkOwned, hleaf]
    dsimp only
    rw [hrefused]
  have howned' : st.child.refs = st.child.tables := by
    unfold refs ownedFrames
    rw [htaken.owned, hchildOwned, List.map_nil, List.append_nil]
  have hpages : Transfer pool st.pool [] (st.child.refs ++ [m.frame]) := by
    rw [hrefs] at hexchange
    rw [howned']
    exact hexchange.toTransfer.trans htaken.transfer
  have hlost := hpages.trans (drop_leak _ _ (hpages.holds_self (Pool.holds_nil pool)))
  unfold forkCow
  rw [hnew]
  dsimp only
  rw [hsupply.tryReserve]
  dsimp only
  rw [howned, hstop]
  refine ⟨_, _, rfl, ?_, ?_⟩
  · rw [owned_setLeaf, htaken.parent.owned, howned]
  · have hcount := hlost.count m.frame
    rw [List.count_nil, List.count_singleton_self] at hcount
    exact hcount

end AddressSpace

/-! ## The run -/

namespace System

open AddressSpace

/-- Frames for a quarter of a million forks. -/
def manyFrames : System where
  pool :=
    { refcount := fun _ => 0
      tracked := fun f => f % pageSize == 0
      bytes := fun _ _ => 0
      allocations := (List.range' 0 (2 ^ 20)).map fun j => some (j * pageSize, fun _ => 0) }
  spaces := []

/-- The first page of the process, which every child unmaps. -/
def firstPage : ℕ := 0x400000

/-- The page after it, which the children keep. -/
def secondPage : ℕ := 0x401000

/-- A process with two pages. -/
def setUp : List Op :=
  [.newSpace, .mapOwned 0 firstPage .userReadWrite fun _ => 0,
    .mapOwned 0 secondPage .userReadWrite fun _ => 0]

/-- Fork, and unmap the first page in the child. -/
def round (k : ℕ) : List Op :=
  [.forkCow 0, .unmap (k + 1) firstPage]

/-- `k` rounds. -/
def rounds (k : ℕ) : List Op :=
  setUp ++ (List.range k).flatMap round

/-- The state after `k` rounds: the process has both pages, its `k` children the second one. -/
structure Rounds (k : ℕ) (sys : System) (parent : AddressSpace) (children : List AddressSpace)
    (A B : ℕ) : Prop where
  account : Account manyFrames sys
  supply : Supply (2 ^ 20 - 9 - 7 * k) sys.pool
  spaces : sys.spaces = some parent :: children.map some
  ne : A ≠ B
  parent : parent.owned = [⟨firstPage, A⟩, ⟨secondPage, B⟩]
  length : children.length = k
  children : ∀ c ∈ children, c.owned = [⟨secondPage, B⟩]

theorem run_append (sys : System) (ops ops' : List Op) :
    (sys.run (ops ++ ops')).2 = ((sys.run ops).2.run ops').2 := by
  induction ops generalizing sys with
  | nil => rfl
  | cons op ops ih => exact ih (sys.step op).2

theorem run_nil (sys : System) : (sys.run []).2 = sys := rfl

theorem run_cons (sys : System) (op : Op) (ops : List Op) :
    (sys.run (op :: ops)).2 = ((sys.step op).2.run ops).2 := rfl

theorem manyFrames_fresh : Fresh manyFrames where
  begins := ⟨rfl, fun f hf => by simpa [manyFrames] using hf⟩
  balanced f := rfl
  panicked := rfl

theorem manyFrames_supply : Supply (2 ^ 20) manyFrames.pool where
  reservations := rfl
  frames := ⟨0, 2 ^ 20, Nat.le_refl _, rfl, fun j _ => ⟨rfl, by simp [manyFrames]⟩⟩

theorem space_zero {sys : System} {parent : AddressSpace} {children : List AddressSpace}
    (h : sys.spaces = some parent :: children.map some) : sys.space 0 = some parent := by
  unfold space
  rw [h]
  rfl

theorem live_cons {sys : System} {parent : AddressSpace} {children : List AddressSpace}
    (h : sys.spaces = some parent :: children.map some) :
    live sys.spaces = parent :: children := by
  unfold live
  rw [h]
  simp

section Rounds

variable {k A B : ℕ} {sys : System} {parent : AddressSpace} {children : List AddressSpace}

/-- The counts of both pages after `k` rounds. -/
theorem Rounds.refcounts (h : Rounds k sys parent children A B) :
    sys.pool.refcount A = 1 ∧ sys.pool.refcount B = k + 1 ∧ sys.owners A = 1 := by
  have hA : sys.owners A = 1 := by
    unfold owners
    rw [live_cons h.spaces, List.filter_cons, if_pos (by simp [ownedFrames, h.parent]),
      List.length_cons, List.filter_eq_nil_iff.mpr fun c hc => by
        simp [ownedFrames, h.children c hc, h.ne]]
    rfl
  have hB : sys.owners B = k + 1 := by
    unfold owners
    rw [live_cons h.spaces, List.filter_cons, if_pos (by simp [ownedFrames, h.parent]),
      List.length_cons, List.filter_eq_self.mpr fun c hc => by
        simp [ownedFrames, h.children c hc], h.length]
  refine ⟨?_, ?_, hA⟩
  · rw [h.account.refcount_eq (by omega), hA]
  · rw [h.account.refcount_eq (by omega), hB]

/-- What the process's fork finds. -/
theorem Rounds.ready (h : Rounds k sys parent children A B) :
    Ready sys.pool parent (sys.others 0) :=
  h.account.inv.ready (space_zero h.spaces)

/-- The fork of a round: the child has both pages. -/
theorem Rounds.fork (h : Rounds k sys parent children A B) (hk : k + 1 < maxRefcount) :
    ∃ child pool' parent', sys.step (.forkCow 0) =
        (.done, ⟨pool', some parent' :: (children ++ [child]).map some⟩) ∧
      Supply (2 ^ 20 - 9 - 7 * (k + 1)) pool' ∧ child.owned = parent.owned ∧
      parent'.owned = parent.owned ∧
      Account manyFrames ⟨pool', some parent' :: (children ++ [child]).map some⟩ := by
  have hready := h.ready
  obtain ⟨hA, hB, -⟩ := h.refcounts
  have hroom : ∀ m ∈ parent.owned, sys.pool.refcount m.frame ≠ maxRefcount := by
    intro m hm
    rw [h.parent] at hm
    rcases List.mem_cons.mp hm with rfl | hm
    · rw [hA]
      decide
    · rw [List.mem_singleton.mp hm, hB]
      omega
  have hsupply : Supply (2 ^ 20 - 9 - 7 * (k + 1) + 3 * parent.owned.length + 1) sys.pool := by
    refine h.supply.mono ?_
    rw [h.parent]
    simp only [List.length_cons, List.length_nil]
    unfold maxRefcount at hk
    omega
  obtain ⟨child, pool', parent', hok, hsupply'⟩ := forkCow_supply hready.wellFormed
    (hready.ledger.frames parent List.mem_cons_self) (ownedFrames_subset parent _) hready.ledger.held
    hready.noDevices hsupply hroom
  have hguard : NeverRefused sys (.forkCow 0) := by
    intro s pre m post hs hsplit _
    rw [space_zero h.spaces] at hs
    cases hs
    exact hroom m (hsplit ▸ by simp)
  rcases h.account.forkCow_cases (space_zero h.spaces) hguard with
    ⟨child', pool₁, parent₁, hok', hfork⟩ | ⟨error, pool₁, parent₁, done, herror, -⟩
  rotate_left
  · rw [hok] at herror
    cases herror
  rw [hok] at hok'
  cases hok'
  have hstep : sys.step (.forkCow 0) =
      (.done, ⟨pool', some parent' :: (children ++ [child]).map some⟩) := by
    simp only [System.step]
    rw [space_zero h.spaces]
    dsimp only
    rw [hok, h.spaces]
    simp
  refine ⟨child, pool', parent', hstep, hsupply', hfork.owned, hfork.parent.owned, ?_⟩
  have haccount := h.account.step hguard
  rw [hstep] at haccount
  exact haccount

/-- One more round. -/
theorem Rounds.succ (h : Rounds k sys parent children A B) (hk : k + 1 < maxRefcount) :
    ∃ parent' children', Rounds (k + 1) (sys.run (round k)).2 parent' children' A B := by
  obtain ⟨child, pool', parent', hstep, hsupply, hchild, hparent, haccount⟩ := h.fork hk
  have hrun : (sys.run (round k)).2 =
      ((System.mk pool' (some parent' :: (children ++ [child]).map some)).step
        (.unmap (k + 1) firstPage)).2 := by
    unfold round
    rw [run_cons, run_cons, run_nil, hstep]
  have hspace : (System.mk pool' (some parent' :: (children ++ [child]).map some)).space (k + 1) =
      some child := by
    unfold space
    simp [← h.length]
  have hready := haccount.inv.ready hspace
  -- the child has the first page, so it can be unmapped
  have hmem : (⟨firstPage, A⟩ : OwnedMapping) ∈ child.mappings :=
    List.mem_append_left _ (by rw [hchild, h.parent]; simp)
  obtain ⟨entry, hleaf, hframe⟩ := hready.wellFormed.mapped _ hmem
  have hquiet := unmapFree_quiet child firstPage pool'
  rcases hr : child.unmapFree firstPage pool' with ⟨error | u, pool'', child'⟩
  · have := (unmapFree_error hr).2.2
    rw [pageEntryInner_of_leaf (show UserPage firstPage by decide) hleaf] at this
    cases this
  rw [hr] at hquiet
  have hun := unmapFree_ok hready.wellFormed hready.heldSelf hr
  obtain ⟨entry', hleaf', hframe'⟩ := hun.mapped
  rw [hleaf] at hleaf'
  cases hleaf'
  have hframeA : u.frame = A := hframe'.symm.trans hframe
  have hchild' : child'.owned = [⟨secondPage, B⟩] := by
    have hunlisted := hun.unlisted
    rw [hframeA] at hunlisted
    cases hown : u.ownership with
    | owned =>
      rw [hown] at hunlisted
      cases hunlisted with
      | owned howned _ =>
        rw [hchild, h.parent] at howned
        exact List.perm_singleton.mp ((List.perm_cons _).mp howned)
    | borrowed =>
      rw [hown] at hunlisted
      cases hunlisted with
      | borrowed hdevices _ =>
        rw [hready.noDevices] at hdevices
        exact absurd hdevices (by simp)
  have hstep' : (System.mk pool' (some parent' :: (children ++ [child]).map some)).step
      (.unmap (k + 1) firstPage) =
      (.done, ⟨pool'', some parent' :: (children ++ [child']).map some⟩) := by
    simp only [System.step, System.withSpace]
    rw [hspace]
    dsimp only
    rw [hr]
    simp [Result.ofExcept, ← h.length]
  refine ⟨parent', children ++ [child'], ?_⟩
  rw [hrun]
  have haccount' := haccount.step (show NeverRefused _ (.unmap (k + 1) firstPage) from trivial)
  rw [hstep'] at haccount' ⊢
  refine ⟨haccount', hsupply.quiet hquiet, rfl, h.ne, hparent.trans h.parent, ?_, fun c hc => ?_⟩
  · simp [h.length]
  · rcases List.mem_append.mp hc with hin | hin
    · exact h.children c hin
    · rw [List.mem_singleton.mp hin]
      exact hchild'

end Rounds

/-- The process with its two pages. -/
theorem rounds_zero : ∃ parent A B, Rounds 0 (manyFrames.run (rounds 0)).2 parent [] A B := by
  -- a new space
  obtain ⟨s₀, pool₀, hnew, hsupply₀⟩ := new_supply (n := 2 ^ 20 - 1) manyFrames_supply
  obtain ⟨-, hleaf₀, howned₀, hdevices₀⟩ := new_ok hnew
  have hstep₀ : manyFrames.step .newSpace = (.done, ⟨pool₀, [some s₀]⟩) := by
    simp only [System.step]
    rw [hnew]
    rfl
  have haccount₀ := manyFrames_fresh.account.step (show NeverRefused _ .newSpace from trivial)
  rw [hstep₀] at haccount₀
  dsimp only at haccount₀
  -- its first page
  obtain ⟨pool₁, s₁, hmap₁, hsupply₁⟩ := mapFresh_supply (n := 2 ^ 20 - 5) (fun _ => 0) hsupply₀
    (show validateUserMapping firstPage 0 .userReadWrite = .ok () by rfl) (hleaf₀ firstPage)
  obtain ⟨A, hfirst⟩ := mapFresh_ok hmap₁ (haccount₀.inv.ready (i := 0) rfl).heldSelf
  have hstep₁ : (System.mk pool₀ [some s₀]).step
      (.mapOwned 0 firstPage .userReadWrite fun _ => 0) = (.done, ⟨pool₁, [some s₁]⟩) := by
    have hspace : (System.mk pool₀ [some s₀]).space 0 = some s₀ := rfl
    simp only [System.step, System.withSpace]
    rw [hspace]
    dsimp only
    rw [hmap₁]
    rfl
  have haccount₁ := haccount₀.step
    (show NeverRefused _ (.mapOwned 0 firstPage .userReadWrite fun _ => 0) from trivial)
  rw [hstep₁] at haccount₁
  dsimp only at haccount₁
  -- its second page
  have hnone : s₁.leaf secondPage = none := by
    rw [hfirst.leaf.elsewhere secondPage (by decide) (by decide)]
    exact hleaf₀ secondPage
  obtain ⟨pool₂, s₂, hmap₂, hsupply₂⟩ := mapFresh_supply (n := 2 ^ 20 - 9) (fun _ => 0) hsupply₁
    (show validateUserMapping secondPage 0 .userReadWrite = .ok () by rfl) hnone
  have hready₁ := haccount₁.inv.ready (i := 0) rfl
  obtain ⟨B, hsecond⟩ := mapFresh_ok hmap₂ hready₁.heldSelf
  have hstep₂ : (System.mk pool₁ [some s₁]).step
      (.mapOwned 0 secondPage .userReadWrite fun _ => 0) = (.done, ⟨pool₂, [some s₂]⟩) := by
    have hspace : (System.mk pool₁ [some s₁]).space 0 = some s₁ := rfl
    simp only [System.step, System.withSpace]
    rw [hspace]
    dsimp only
    rw [hmap₂]
    rfl
  have haccount₂ := haccount₁.step
    (show NeverRefused _ (.mapOwned 0 secondPage .userReadWrite fun _ => 0) from trivial)
  rw [hstep₂] at haccount₂
  dsimp only at haccount₂
  have hrun : (manyFrames.run (rounds 0)).2 = ⟨pool₂, [some s₂]⟩ := by
    unfold rounds setUp
    rw [List.range_zero, List.flatMap_nil, List.append_nil, run_cons, run_cons, run_cons, run_nil,
      hstep₀, hstep₁, hstep₂]
  have howned₁ : s₁.owned = [⟨firstPage, A⟩] := by
    rw [hfirst.owned, howned₀, List.nil_append]
  refine ⟨s₂, A, B, ?_⟩
  rw [hrun]
  refine ⟨haccount₂, hsupply₂, rfl, fun heq => ?_, ?_, rfl, fun c hc => absurd hc List.not_mem_nil⟩
  · -- the frame of the first page is in use when the second one is allocated
    have hin : A ∈ s₁.refs := List.mem_append_right _ (by simp [ownedFrames, howned₁])
    have hcount : s₁.refs.count A ≤ pool₁.refcount A := (hready₁.heldSelf A).1
    have hpos := List.count_pos_iff.mpr hin
    have hfree := hsecond.free
    rw [← heq] at hfree
    omega
  · rw [hsecond.owned, howned₁]
    rfl

theorem rounds_succ (k : ℕ) :
    (manyFrames.run (rounds (k + 1))).2 = ((manyFrames.run (rounds k)).2.run (round k)).2 := by
  unfold rounds
  rw [List.range_succ, List.flatMap_append, ← List.append_assoc, run_append]
  simp

theorem rounds_reached {k : ℕ} (hk : k < maxRefcount) : ∃ parent children A B,
    Rounds k (manyFrames.run (rounds k)).2 parent children A B := by
  induction k with
  | zero =>
    obtain ⟨parent, A, B, h⟩ := rounds_zero
    exact ⟨parent, [], A, B, h⟩
  | succ k ih =>
    obtain ⟨parent, children, A, B, h⟩ := ih (by omega)
    obtain ⟨parent', children', h'⟩ := h.succ hk
    rw [rounds_succ]
    exact ⟨parent', children', A, B, h'⟩

/-- When the second page has all the references it can have, a fork loses one to the first. -/
theorem Rounds.refused {k A B : ℕ} {sys : System} {parent : AddressSpace}
    {children : List AddressSpace} (h : Rounds k sys parent children A B)
    (hk : k + 1 = maxRefcount) :
    ¬Conserved (fun _ _ => True) manyFrames (sys.step (.forkCow 0)).2 := by
  intro hconserved
  obtain ⟨hA, hB, -⟩ := h.refcounts
  have hready := h.ready
  unfold maxRefcount at hk
  have hsupply : Supply 4 sys.pool := h.supply.mono (by omega)
  obtain ⟨pool', parent', hrefused, howned, hlost⟩ := forkCow_refused hready.wellFormed
    (hready.ledger.frames parent List.mem_cons_self) (ownedFrames_subset parent _)
    hready.ledger.held h.parent hsupply
    (by rw [hA]; decide) (by rw [hB, hk]; rfl)
  have hend : (sys.step (.forkCow 0)).2 = ⟨pool', some parent' :: children.map some⟩ := by
    simp only [System.step]
    rw [space_zero h.spaces]
    dsimp only
    rw [hrefused, h.spaces]
    rfl
  -- one space owns the first page, but it has two references
  have howners : (System.mk pool' (some parent' :: children.map some)).owners A = 1 := by
    unfold owners
    rw [live_cons rfl, List.filter_cons, if_pos (by simp [ownedFrames, howned, h.parent]),
      List.length_cons, List.filter_eq_nil_iff.mpr fun c hc => by
        simp [ownedFrames, h.children c hc, h.ne]]
    rfl
  rw [hend] at hconserved
  have hcount := hconserved.refcount A (by omega)
  rw [howners] at hcount
  dsimp only at hlost hcount
  omega

/-- The rounds that exhaust the count of the second page, and one more fork. -/
def refusal : List Op :=
  rounds (maxRefcount - 1) ++ [.forkCow 0]

/-- After a refused page, a frame that one space owns has two references. -/
theorem not_conserved_afterRefusal :
    ¬Conserved (fun _ _ => True) manyFrames (manyFrames.run refusal).2 := by
  obtain ⟨parent, children, A, B, h⟩ := rounds_reached (k := maxRefcount - 1) (by decide)
  have hrefused := h.refused (Nat.sub_add_cancel (by decide))
  unfold refusal
  rw [run_append, run_cons, run_nil]
  exact hrefused

end System

end SaeOS.Paging
