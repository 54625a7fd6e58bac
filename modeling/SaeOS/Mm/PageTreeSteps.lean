import SaeOS.Mm.PageTreeShape

/-!
# Three kinds of store into a page-table tree

Mapping and unmapping are made of three steps: a new empty table is put into a free slot (`Linked`),
an empty table is unlinked and its frame given back (`dropTable`), and the entry of a page is
written. Each keeps the tables a tree, and says what becomes of the ways and the translations; only
the last one changes a translation. Unlinking a table just linked undoes it (`Linked.undo`).
-/

namespace SaeOS.Frame.Pool

variable {pool pool' : Pool} {f : ℕ}

theorem allocFrame_some_eq (h : pool.allocFrame = (some f, pool')) :
    pool.refcount f = 0 ∧ pool.tracked f = true ∧
      pool'.refcount = Function.update pool.refcount f 1 ∧ pool'.tracked = pool.tracked ∧
      pool'.panicked = pool.panicked := by
  unfold allocFrame at h
  split at h
  · cases h
  · cases h
  · split_ifs at h with hfree
    · cases h
      exact ⟨hfree.1, hfree.2, rfl, rfl, rfl⟩
    · cases h

theorem allocFrame_none_eq (h : pool.allocFrame = (none, pool')) :
    pool'.refcount = pool.refcount ∧ pool'.tracked = pool.tracked ∧
      pool'.panicked = pool.panicked := by
  unfold allocFrame at h
  split at h
  · cases h
    exact ⟨rfl, rfl, rfl⟩
  · cases h
    exact ⟨rfl, rfl, rfl⟩
  · split_ifs at h
    · cases h
    · cases h
      exact ⟨rfl, rfl, rfl⟩

/-- The only reference to a frame is given back. -/
theorem freeFrame_last (h : pool.refcount f = 1) (htracked : pool.tracked f = true) :
    (pool.freeFrame f).refcount = Function.update pool.refcount f 0 ∧
      (pool.freeFrame f).tracked = pool.tracked ∧
      (pool.freeFrame f).panicked = pool.panicked := by
  unfold freeFrame
  rw [if_neg (by rw [h, htracked]; simp), if_pos h]
  exact ⟨rfl, rfl, rfl⟩

end SaeOS.Frame.Pool

namespace SaeOS.PageTree

open Frame Paging Machine

variable {s s' s'' : Machine} {root table f g i d k : ℕ} {entry : Entry} {p va : UserAddress}

/-- As before: what the frames in use hold, and which frames are in use. What is left over in free
frames does not matter. -/
structure Restored (s s' : Machine) : Prop where
  mem : ∀ f, s.pool.refcount f ≠ 0 → s'.mem f = s.mem f
  refcount : s'.pool.refcount = s.pool.refcount
  tracked : s'.pool.tracked = s.pool.tracked
  panicked : s'.pool.panicked = s.pool.panicked

namespace Restored

theorem refl (s : Machine) : Restored s s :=
  ⟨fun _ _ => rfl, rfl, rfl, rfl⟩

theorem undisturbed (h : Restored s s') : Undisturbed s s' :=
  ⟨h.mem, fun f _ => by rw [h.refcount], h.tracked⟩

end Restored

/-! ## A new table -/

/-- The slot `i` of a table is linked to the fresh frame `g`. -/
def Linked (s : Machine) (table i g : ℕ) (s' : Machine) : Prop :=
  ∃ pool, s.pool.allocFrame = (some g, pool) ∧
    s' = Machine.write ⟨Function.update s.mem g fun _ => {}, pool⟩ table i ⟨g, userTable⟩

theorem ensureTable_cases {o : Option Bool} (h : s.ensureTable table i = (o, s')) :
    ((s.mem table i).bits.present = true ∧ o = some false ∧ s' = s) ∨
    ((s.mem table i).bits.present = false ∧ o = some true ∧ ∃ g, Linked s table i g s') ∨
    ((s.mem table i).bits.present = false ∧ o = none ∧ Restored s s') := by
  unfold ensureTable allocTable at h
  split_ifs at h with hpresent
  · cases h
    exact Or.inl ⟨hpresent, rfl, rfl⟩
  · rw [Bool.not_eq_true] at hpresent
    refine Or.inr ?_
    rcases halloc : s.pool.allocFrame with ⟨_ | g, pool⟩ <;> rw [halloc] at h <;> cases h
    · obtain ⟨hrefcount, htracked, hpanicked⟩ := Pool.allocFrame_none_eq halloc
      exact Or.inr ⟨hpresent, rfl, fun _ _ => rfl, hrefcount, htracked, hpanicked⟩
    · exact Or.inl ⟨hpresent, rfl, g, pool, halloc, rfl⟩

namespace Linked

/-- The fresh frame alone, before it is linked. -/
theorem undisturbed {pool : Pool} (h : s.pool.allocFrame = (some g, pool)) :
    Undisturbed s ⟨Function.update s.mem g fun _ => {}, pool⟩ := by
  obtain ⟨hfree, -, hrefcount, htracked, -⟩ := Pool.allocFrame_some_eq h
  have hne : ∀ f, s.pool.refcount f ≠ 0 → f ≠ g := by
    rintro f hf rfl
    exact hf hfree
  refine ⟨fun f hf => Function.update_of_ne (hne f hf) _ _, fun f hf => ?_, htracked⟩
  show pool.refcount f = s.pool.refcount f
  rw [hrefcount, Function.update_of_ne (hne f hf)]

theorem refcount (h : Linked s table i g s') :
    s.pool.refcount g = 0 ∧ s'.pool.refcount = Function.update s.pool.refcount g 1 := by
  obtain ⟨pool, halloc, rfl⟩ := h
  obtain ⟨hfree, -, hrefcount, -, -⟩ := Pool.allocFrame_some_eq halloc
  exact ⟨hfree, hrefcount⟩

/-- The new table is empty, and in use. -/
theorem new_table (h : Linked s table i g s') (hne : g ≠ table) :
    (s'.mem g = fun _ => {}) ∧ s'.pool.refcount g = 1 ∧ s'.pool.tracked g = true := by
  obtain ⟨pool, halloc, rfl⟩ := h
  obtain ⟨-, hg, hrefcount, htracked, -⟩ := Pool.allocFrame_some_eq halloc
  refine ⟨?_, ?_, ?_⟩
  · rw [write_mem_of_ne _ _ _ hne]
    exact Function.update_self _ _ _
  · show pool.refcount g = 1
    rw [hrefcount, Function.update_self]
  · show pool.tracked g = true
    rw [htracked, hg]

section Tree

variable (tree : Tree s root) (hk : k < 3) (hp : s.route root p k = some table)
  (h : Linked s table (index p k) g s')

include tree hk hp h

theorem ne_table : g ≠ table := by
  rintro rfl
  exact tree.refcount_ne_zero hk.le hp h.refcount.1

theorem route (hd : d ≤ 3) :
    s'.route root va d =
      if Agree (k + 1) va p ∧ k < d then if d = k + 1 then some g else none
      else s.route root va d := by
  have hne := h.ne_table tree hk hp
  obtain ⟨pool, halloc, rfl⟩ := h
  have hsame := undisturbed halloc
  rw [(hsame.tree tree).route_write hk.le (by rw [hsame.route tree (by omega)]; exact hp) ?_ hd,
    hsame.route tree (by omega)]
  · rfl
  · intro f _ hf
    cases hf
    exact ⟨hne, Function.update_self _ _ _⟩

theorem slot (hd : d ≤ 3) :
    s'.slot root va d =
      if Agree (k + 1) va p ∧ k ≤ d then
        if d = k then some ⟨g, userTable⟩ else if d = k + 1 then some {} else none
      else s.slot root va d := by
  have hne := h.ne_table tree hk hp
  obtain ⟨pool, halloc, rfl⟩ := h
  have hsame := undisturbed halloc
  rw [(hsame.tree tree).slot_write hk.le (by rw [hsame.route tree (by omega)]; exact hp) ?_ hd,
    hsame.slot tree hd]
  · rfl
  · intro f _ hf
    cases hf
    exact ⟨hne, Function.update_self _ _ _⟩

theorem route_new : s'.route root p (k + 1) = some g := by
  rw [h.route tree hk hp (by omega), if_pos ⟨Agree.refl _ _, k.lt_succ_self⟩, if_pos rfl]

/-- The tables with the new one are a tree. -/
theorem keeps_tree : Tree s' root := by
  have hne := h.ne_table tree hk hp
  have hold : ∀ {va : UserAddress} {d : ℕ}, d ≤ 3 → s.route root va d ≠ some g := fun hd hva =>
    tree.refcount_ne_zero hd hva h.refcount.1
  refine ⟨fun {va vb d e f} hd he hva hvb => ?_, fun {va d f} hd hva => ?_,
    fun {va d entry} hd hva habsent => ?_, fun va => ?_⟩
  · rw [h.route tree hk hp hd] at hva
    rw [h.route tree hk hp he] at hvb
    split_ifs at hva hvb with ha hda hb heb hb
    · -- both are the new table
      subst hda
      exact ⟨heb.symm, (ha.1.trans hb.1.symm)⟩
    · cases hva
      exact absurd hvb (hold he)
    · cases hvb
      exact absurd hva (hold hd)
    · exact tree.apart hd he hva hvb
  · rw [h.route tree hk hp hd] at hva
    split_ifs at hva
    · cases hva
      exact (h.new_table hne).2
    · have hf : f ≠ g := fun heq => hold hd (heq ▸ hva)
      obtain ⟨hone, htracked⟩ := tree.held hd hva
      obtain ⟨pool, halloc, rfl⟩ := h
      obtain ⟨-, -, hrefcount, hsame, -⟩ := Pool.allocFrame_some_eq halloc
      show pool.refcount f = 1 ∧ pool.tracked f = true
      rw [hrefcount, Function.update_of_ne hf, hsame]
      exact ⟨hone, htracked⟩
  · rw [h.slot tree hk hp hd] at hva
    split_ifs at hva
    · cases hva
      cases habsent
    · cases hva
      rfl
    · exact tree.cleared hd hva habsent
  · have hslot : s'.slot root va 0 = some (s'.mem root (index va 0)) := rfl
    rw [h.slot tree hk hp (Nat.zero_le 3)] at hslot
    split_ifs at hslot
    · rw [← Option.some.inj hslot]
      rfl
    · omega
    · rw [← Option.some.inj hslot]
      exact tree.root_small va

/-- Nothing is mapped yet through a new table. -/
theorem translation (habsent : (s.mem table (index p k)).bits.present = false) :
    s'.translation root va = s.translation root va := by
  refine translation_congr fun d hd => ?_
  rw [h.slot tree hk hp hd]
  split_ifs with hon hself hnext
  · subst hself
    rw [slot_of_agree _ _ hon.1, slot_of_route hp, ends_absent _ habsent]
    exact ends_of_table (f := g) hk rfl
  · subst hnext
    -- the old way stops at the slot that had no entry
    have hstop : s.route root va (k + 1) = none := by
      rw [route_of_agree s root hon.1, route_succ, slot_of_route hp, Option.bind_some,
        Entry.table?, habsent]
      rfl
    rw [Machine.slot, hstop]
    rfl
  · have hstop : s.route root va (k + 1) = none := by
      rw [route_of_agree s root hon.1, route_succ, slot_of_route hp, Option.bind_some,
        Entry.table?, habsent]
      rfl
    rw [Machine.slot, route_none_of_le hstop (by omega)]
    rfl
  · rfl

/-- Unlinking the new table leads back, also after further stores that were undone. -/
theorem undo (habsent : (s.mem table (index p k)).bits.present = false)
    (hback : Restored s' s'') : Restored s (s''.dropTable table (index p k)) := by
  have hne := h.ne_table tree hk hp
  have hzero : s.mem table (index p k) = {} := tree.cleared hk.le (slot_of_route hp) habsent
  obtain ⟨-, hone, hg⟩ := h.new_table hne
  obtain ⟨hfree, hrefcount⟩ := h.refcount
  have htable : s''.mem table = s'.mem table := by
    refine hback.mem table ?_
    rw [hrefcount, Function.update_of_ne hne.symm]
    exact tree.refcount_ne_zero hk.le hp
  obtain ⟨pool, halloc, rfl⟩ := h
  obtain ⟨-, -, -, htracked, hpanicked⟩ := Pool.allocFrame_some_eq halloc
  have hframe : (s''.mem table (index p k)).frame = g := by
    rw [htable, write_mem_self]
  have hone : s''.pool.refcount g = 1 := by
    rw [hback.refcount]
    exact hone
  have hg : s''.pool.tracked g = true := by
    rw [hback.tracked]
    exact hg
  obtain ⟨hfreed, hfreedTracked, hfreedPanicked⟩ := Pool.freeFrame_last hone hg
  unfold dropTable
  rw [hframe]
  refine ⟨fun f hf => ?_, ?_, ?_, ?_⟩
  · have hfg : f ≠ g := fun heq => hf (heq ▸ hfree)
    show (s''.write table (index p k) {}).mem f = s.mem f
    by_cases heq : f = table
    · subst heq
      simp only [write, Function.update_self, htable]
      rw [Function.update_of_ne hne.symm, Function.update_idem, ← hzero, Function.update_eq_self]
    · rw [write_mem_of_ne _ _ _ heq, hback.mem f, write_mem_of_ne _ _ _ heq]
      · exact Function.update_of_ne hfg _ _
      · rw [hrefcount, Function.update_of_ne hfg]
        exact hf
  · show (s''.pool.freeFrame g).refcount = s.pool.refcount
    rw [hfreed, hback.refcount, hrefcount, Function.update_idem, ← hfree, Function.update_eq_self]
  · exact hfreedTracked.trans (hback.tracked.trans htracked)
  · exact hfreedPanicked.trans (hback.panicked.trans hpanicked)

end Tree

end Linked

/-! ## An empty table less -/

theorem tableEmpty_iff : s.tableEmpty f = true ↔
    ∀ i < tableSlots, (s.mem f i).bits.present = false := by
  simp [tableEmpty]

theorem drop_mem (s : Machine) (table i : ℕ) :
    (s.dropTable table i).mem = (s.write table i {}).mem := rfl

section Drop

variable (tree : Tree s root) (hk : k < 3) (hp : s.route root p k = some table)
  (hg : s.route root p (k + 1) = some g)

include hp hg in
/-- The link to a table names its frame. -/
theorem frame_of_route : (s.mem table (index p k)).frame = g := by
  obtain ⟨entry, hslot, htable⟩ := slot_of_route_succ hg
  rw [slot_of_route hp] at hslot
  rw [Option.some.inj hslot, (Entry.table?_eq_some_iff.mp htable).2.2]

include tree hk hp hg

theorem drop_pool :
    (s.dropTable table (index p k)).pool.refcount = Function.update s.pool.refcount g 0 ∧
      (s.dropTable table (index p k)).pool.tracked = s.pool.tracked ∧
      (s.dropTable table (index p k)).pool.panicked = s.pool.panicked := by
  obtain ⟨hone, htracked⟩ := tree.held (Nat.succ_le_of_lt hk) hg
  unfold dropTable
  rw [frame_of_route hp hg]
  exact Pool.freeFrame_last hone htracked

omit hg in
theorem drop_route (hd : d ≤ 3) :
    (s.dropTable table (index p k)).route root va d =
      if Agree (k + 1) va p ∧ k < d then none else s.route root va d := by
  rw [route_congr_mem (drop_mem _ _ _),
    tree.route_write hk.le hp (fun f _ hf => by cases hf) hd]
  split_ifs <;> rfl

omit hg in
theorem drop_slot (hd : d ≤ 3) :
    (s.dropTable table (index p k)).slot root va d =
      if Agree (k + 1) va p ∧ k ≤ d then if d = k then some {} else none
      else s.slot root va d := by
  rw [slot_congr_mem (drop_mem _ _ _),
    tree.slot_write hk.le hp (fun f _ hf => by cases hf) hd]
  split_ifs <;> rfl

/-- The other tables are still a tree. -/
theorem drop_tree : Tree (s.dropTable table (index p k)) root := by
  have hroute : ∀ {va : UserAddress} {d f : ℕ}, d ≤ 3 →
      (s.dropTable table (index p k)).route root va d = some f →
      s.route root va d = some f ∧ f ≠ g := by
    intro va d f hd hva
    rw [drop_route tree hk hp hd] at hva
    split_ifs at hva with hon
    refine ⟨hva, fun heq => hon ?_⟩
    obtain ⟨rfl, hagree⟩ := tree.apart hd (Nat.succ_le_of_lt hk) (heq ▸ hva) hg
    exact ⟨hagree, k.lt_succ_self⟩
  obtain ⟨hrefcount, htracked, -⟩ := drop_pool tree hk hp hg
  refine ⟨fun hd he hva hvb => tree.apart hd he (hroute hd hva).1 (hroute he hvb).1,
    fun {va d f} hd hva => ?_, fun {va d entry} hd hva habsent => ?_, fun va => ?_⟩
  · obtain ⟨hva, hne⟩ := hroute hd hva
    rw [hrefcount, Function.update_of_ne hne, htracked]
    exact tree.held hd hva
  · rw [drop_slot tree hk hp hd] at hva
    split_ifs at hva
    · cases hva
      rfl
    · exact tree.cleared hd hva habsent
  · have hslot : (s.dropTable table (index p k)).slot root va 0 =
        some ((s.dropTable table (index p k)).mem root (index va 0)) := rfl
    rw [drop_slot tree hk hp (Nat.zero_le 3)] at hslot
    split_ifs at hslot
    · rw [← Option.some.inj hslot]
    · rw [← Option.some.inj hslot]
      exact tree.root_small va

/-- Nothing was mapped through an empty table. -/
theorem drop_translation (hempty : s.tableEmpty g = true) :
    (s.dropTable table (index p k)).translation root va = s.translation root va := by
  refine translation_congr fun d hd => ?_
  rw [drop_slot tree hk hp hd]
  split_ifs with hon hself
  · subst hself
    obtain ⟨entry, hslot, htable⟩ := slot_of_route_succ hg
    rw [slot_of_agree _ _ hon.1, hslot, ends_of_table hk htable]
    rfl
  · have hva : s.route root va (k + 1) = some g := by
      rw [route_of_agree s root hon.1, hg]
    have habsent : (s.mem g (index va (k + 1))).bits.present = false :=
      tableEmpty_iff.mp hempty _ (index_lt _ _)
    by_cases hnext : d = k + 1
    · subst hnext
      rw [slot_of_route hva, ends_absent _ habsent]
      rfl
    · have hstop : s.route root va (k + 2) = none := by
        rw [route_succ, slot_of_route hva, Option.bind_some, Entry.table?, habsent]
        rfl
      rw [Machine.slot, route_none_of_le hstop (by omega)]
      rfl
  · rfl

end Drop

/-! ## The entry of a page -/

section Leaf

variable (tree : Tree s root) (hp : s.route root p 3 = some table)

include tree hp

theorem leaf_route (hd : d ≤ 3) :
    (s.write table (index p 3) entry).route root va d = s.route root va d :=
  tree.route_write_off le_rfl hp hd (Or.inl hd)

theorem leaf_slot (hd : d ≤ 3) :
    (s.write table (index p 3) entry).slot root va d =
      if Agree 4 va p ∧ d = 3 then some entry else s.slot root va d := by
  rw [tree.slot_write le_rfl hp (fun f hf => absurd hf (lt_irrefl 3)) hd]
  by_cases hagree : Agree 4 va p
  · by_cases h3 : d = 3
    · simp [hagree, h3]
    · have : ¬ 3 ≤ d := by omega
      simp [h3, this]
  · simp [hagree]

theorem leaf_tree (hentry : entry.bits.present = false → entry = {}) :
    Tree (s.write table (index p 3) entry) root where
  apart hd he hva hvb := by
    rw [leaf_route tree hp hd] at hva
    rw [leaf_route tree hp he] at hvb
    exact tree.apart hd he hva hvb
  held hd hva := by
    rw [leaf_route tree hp hd] at hva
    exact tree.held hd hva
  cleared hd hva habsent := by
    rw [leaf_slot tree hp hd] at hva
    split_ifs at hva
    · cases hva
      exact hentry habsent
    · exact tree.cleared hd hva habsent
  root_small va := by
    have hslot : (s.write table (index p 3) entry).slot root va 0 =
        some ((s.write table (index p 3) entry).mem root (index va 0)) := rfl
    rw [leaf_slot tree hp (Nat.zero_le 3), if_neg (by omega)] at hslot
    rw [← Option.some.inj hslot]
    exact tree.root_small va

omit tree in
/-- An address whose way has all four tables is translated by the last one, if at all. -/
theorem translation_of_route : s.translation root p = ends 3 (s.slot root p 3) := by
  have hnone : ∀ d < 3, ends d (s.slot root p d) = none := by
    intro d hd
    obtain ⟨f, hf⟩ := route_of_le hp (Nat.succ_le_of_lt hd)
    obtain ⟨entry, hslot, htable⟩ := slot_of_route_succ hf
    rw [hslot, ends_of_table hd htable]
  rw [translation, hnone 0 (by omega), hnone 1 (by omega), hnone 2 (by omega)]
  rfl

/-- The page is translated by the new entry, and no other page is concerned. -/
theorem leaf_translation :
    (s.write table (index p 3) entry).translation root va =
      if va.1 / pageSize = p.1 / pageSize then ends 3 (some entry)
      else s.translation root va := by
  split_ifs with hpage
  · have hagree := agree_four_iff.mpr hpage
    have hva : (s.write table (index p 3) entry).route root va 3 = some table := by
      rw [leaf_route tree hp le_rfl, route_of_agree s root (hagree.mono (by omega)), hp]
    rw [translation_of_route hva, leaf_slot tree hp le_rfl, if_pos ⟨hagree, rfl⟩]
  · refine translation_congr fun d hd => ?_
    rw [leaf_slot tree hp hd, if_neg fun h => hpage (agree_four_iff.mp h.1)]

end Leaf

end SaeOS.PageTree
