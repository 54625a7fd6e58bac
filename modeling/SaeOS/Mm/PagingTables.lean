import SaeOS.Mm.Paging

/-!
# Page-table edits

What mapping and unmapping one page does to the table tree (`mapPage`, `unmapPage`): the entry of
that page changes and no other, and the frames of the tables are exchanged with the pool. A failed
mapping gives back every table it allocated on the way.
-/

namespace SaeOS.Paging

open Frame RadixTree

variable {pool pool' : Pool} {page : ℕ} {entry : Entry}

theorem tableSlots_pos : 0 < tableSlots := by decide

/-- A new table is its own only block. -/
theorem blocks_empty (n f : ℕ) :
    (Tree.ofTable (Table.empty f) : Tree Entry (n + 1)).blocks tableSlots (n + 1) = [f] := by
  rw [Tree.blocks, Tree.table_ofTable, Table.blocksBelow_of_isEmpty]
  · rfl
  · exact Table.isEmpty_iff.mpr fun _ _ => rfl

/-- Exchanging the blocks behind one slot exchanges those of the whole tree. -/
theorem exchange_set {n : ℕ} {t : Tree Entry (n + 1)} {o : Option (Tree Entry n)}
    (h : Exchange pool pool'
      ((t.table.slot (page / tableSlots ^ n % tableSlots)).elim [] (Tree.blocks tableSlots n))
      (o.elim [] (Tree.blocks tableSlots n))) :
    Exchange pool pool' (t.blocks tableSlots (n + 1))
      ((Tree.ofTable (t.table.set (page / tableSlots ^ n % tableSlots) o)).blocks tableSlots
        (n + 1)) := by
  obtain ⟨rest, hold, hnew⟩ := Tree.blocks_set tableSlots_pos t page
  exact (h.frame rest).congr hold.symm (hnew o).symm

/-- A mapped page gets its entry, and every other page keeps its own. -/
theorem mapPage_ok : ∀ {n : ℕ} {t t' : Tree Entry (n + 1)} {pool pool' : Pool},
    mapPage n t page entry pool = (.ok t', pool') →
    t.lookup tableSlots (n + 1) page = none ∧
      Exchange pool pool' (t.blocks tableSlots (n + 1)) (t'.blocks tableSlots (n + 1)) ∧
      ∀ k, t'.lookup tableSlots (n + 1) k =
        if k % tableSlots ^ (n + 1) = page % tableSlots ^ (n + 1) then some entry
        else t.lookup tableSlots (n + 1) k
  | 0, t, t', pool, pool', h => by
    rw [mapPage] at h
    split at h
    · cases h
    · rename_i hslot
      cases h
      refine ⟨Tree.lookup_of_slot_none hslot, ?_, ?_⟩
      · refine exchange_set ?_
        rw [hslot]
        exact Exchange.refl _ _
      · refine Tree.lookup_set fun k => ?_
        rw [Nat.pow_zero, Nat.mod_one, Nat.mod_one, if_pos rfl]
        rfl
  | n + 1, t, t', pool, pool', h => by
    rw [mapPage] at h
    split at h
    · -- the next table exists
      rename_i sub hslot
      split at h
      · rename_i sub' pool₁ hsub
        cases h
        obtain ⟨hnone, hexchange, hlookup⟩ := mapPage_ok hsub
        refine ⟨?_, ?_, ?_⟩
        · rw [Tree.lookup_of_slot_some hslot, hnone]
        · refine exchange_set ?_
          rw [hslot]
          exact hexchange
        · refine Tree.lookup_set fun k => ?_
          rw [hslot]
          exact hlookup k
      · cases h
    · -- a table is allocated for it
      rename_i hslot
      split at h
      · cases h
      · rename_i f pool₁ halloc
        split at h
        · rename_i sub' pool₂ hsub
          cases h
          obtain ⟨-, hexchange, hlookup⟩ := mapPage_ok hsub
          refine ⟨Tree.lookup_of_slot_none hslot, ?_, ?_⟩
          · refine exchange_set ?_
            rw [hslot]
            rw [blocks_empty] at hexchange
            exact (allocFrameZeroed_some halloc).1.trans hexchange
          · refine Tree.lookup_set fun k => ?_
            rw [hslot]
            refine (hlookup k).trans ?_
            rw [Tree.lookup_empty]
            rfl
        · cases h

/-- A failed mapping leaves no reference behind, and fails for want of a frame or because the page
is mapped. -/
theorem mapPage_error : ∀ {n : ℕ} {t : Tree Entry (n + 1)} {pool pool' : Pool}
    {error : AddressSpaceError}, mapPage n t page entry pool = (.error error, pool') →
    Exchange pool pool' [] [] ∧
      (error = .outOfFrames ∧ t.lookup tableSlots (n + 1) page = none ∨
        error = .alreadyMapped ∧ t.lookup tableSlots (n + 1) page ≠ none)
  | 0, t, pool, pool', error, h => by
    rw [mapPage] at h
    split at h
    · rename_i e hslot
      cases h
      refine ⟨Exchange.refl _ _, Or.inr ⟨rfl, ?_⟩⟩
      rw [Tree.lookup_of_slot_some hslot]
      exact Option.some_ne_none _
    · cases h
  | n + 1, t, pool, pool', error, h => by
    rw [mapPage] at h
    split at h
    · rename_i sub hslot
      split at h
      · cases h
      · rename_i error' pool₁ hsub
        cases h
        rw [Tree.lookup_of_slot_some hslot]
        exact mapPage_error hsub
    · rename_i hslot
      split at h
      · rename_i pool₁ halloc
        cases h
        exact ⟨allocFrameZeroed_none halloc, Or.inl ⟨rfl, Tree.lookup_of_slot_none hslot⟩⟩
      · rename_i f pool₁ halloc
        split at h
        · cases h
        · rename_i error' pool₂ hsub
          cases h
          obtain ⟨hsubexchange, hreason⟩ := mapPage_error hsub
          have htaken : Exchange pool pool₂ [] [f] :=
            (allocFrameZeroed_some halloc).1.trans (hsubexchange.frame [f])
          have hheld : pool₂.Holds [f] := htaken.holds_self (Pool.holds_nil pool)
          refine ⟨htaken.trans (freeFrame_exchange hheld), ?_⟩
          -- the new table is empty, so the page below it is not mapped
          rcases hreason with ⟨hframes, -⟩ | ⟨-, hmapped⟩
          · exact Or.inl ⟨hframes, Tree.lookup_of_slot_none hslot⟩
          · exact absurd (Tree.lookup_empty f page) hmapped

/-- An unmapped page loses its entry, and every other page keeps its own. -/
theorem unmapPage_ok {n : ℕ} {t t' : Tree Entry (n + 1)}
    (h : unmapPage n t page pool = (.ok (entry, t'), pool'))
    (hold : pool.Holds (t.blocks tableSlots (n + 1))) :
    t.lookup tableSlots (n + 1) page = some entry ∧
      Exchange pool pool' (t.blocks tableSlots (n + 1)) (t'.blocks tableSlots (n + 1)) ∧
      ∀ k, t'.lookup tableSlots (n + 1) k =
        if k % tableSlots ^ (n + 1) = page % tableSlots ^ (n + 1) then none
        else t.lookup tableSlots (n + 1) k := by
  induction n generalizing entry pool pool' with
  | zero =>
    rw [unmapPage] at h
    split at h
    · cases h
    · rename_i e hslot
      cases h
      refine ⟨?_, ?_, ?_⟩
      · rw [Tree.lookup_of_slot_some hslot]
        rfl
      · refine exchange_set ?_
        rw [hslot]
        exact Exchange.refl _ _
      · refine Tree.lookup_set fun k => ?_
        rw [Nat.pow_zero, Nat.mod_one, Nat.mod_one, if_pos rfl]
        rfl
  | succ n ih =>
    rw [unmapPage] at h
    split at h
    · cases h
    · rename_i sub hslot
      have hsubheld : pool.Holds (sub.blocks tableSlots (n + 1)) := by
        obtain ⟨rest, hperm, -⟩ := Tree.blocks_set tableSlots_pos t page
        rw [hslot] at hperm
        exact (hold.congr hperm).of_append_left
      split at h
      · cases h
      · rename_i entry' sub' pool₁ hsub
        obtain ⟨hsome, hexchange, hlookup⟩ := ih hsub hsubheld
        split_ifs at h with hempty
        · -- the table became empty: its block goes back
          cases h
          have hblocks : sub'.blocks tableSlots (n + 1) = [sub'.table.block] := by
            rw [Tree.blocks, Table.blocksBelow_of_isEmpty hempty]
            rfl
          refine ⟨by rw [Tree.lookup_of_slot_some hslot, hsome], ?_, ?_⟩
          · refine exchange_set ?_
            rw [hslot]
            rw [hblocks] at hexchange
            exact hexchange.trans (freeFrame_exchange (hexchange.holds_self hsubheld))
          · refine Tree.lookup_set fun k => ?_
            rw [hslot]
            have hgone : sub'.lookup tableSlots (n + 1) k = none :=
              Tree.lookup_of_slot_none
                (Table.isEmpty_iff.mp hempty _ (Tree.digit_lt tableSlots_pos k n))
            exact hgone.symm.trans (hlookup k)
        · cases h
          refine ⟨by rw [Tree.lookup_of_slot_some hslot, hsome], ?_, ?_⟩
          · refine exchange_set ?_
            rw [hslot]
            exact hexchange
          · refine Tree.lookup_set fun k => ?_
            rw [hslot]
            exact hlookup k

/-- Only a page that is not mapped cannot be unmapped. -/
theorem unmapPage_error : ∀ {n : ℕ} {t : Tree Entry (n + 1)} {pool pool' : Pool}
    {error : AddressSpaceError}, unmapPage n t page pool = (.error error, pool') →
    pool' = pool ∧ t.lookup tableSlots (n + 1) page = none
  | 0, t, pool, pool', error, h => by
    rw [unmapPage] at h
    split at h
    · rename_i hslot
      cases h
      exact ⟨rfl, Tree.lookup_of_slot_none hslot⟩
    · cases h
  | n + 1, t, pool, pool', error, h => by
    rw [unmapPage] at h
    split at h
    · rename_i hslot
      cases h
      exact ⟨rfl, Tree.lookup_of_slot_none hslot⟩
    · rename_i sub hslot
      split at h
      · rename_i error' pool₁ hsub
        cases h
        rw [Tree.lookup_of_slot_some hslot]
        exact unmapPage_error hsub
      · split_ifs at h
        · cases h
        · cases h

end SaeOS.Paging
