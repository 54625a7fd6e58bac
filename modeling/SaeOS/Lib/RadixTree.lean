import Mathlib.Algebra.Group.Nat.Defs
import Mathlib.Data.List.Basic
import Mathlib.Data.List.Perm.Basic
import Mathlib.Data.Nat.Basic
import Mathlib.Logic.Function.Basic
import Mathlib.Tactic.Common

/-!
# Radix trees of fixed depth

A tree of depth `n` over entries `α` is an entry for `n = 0` and a table of trees of depth `n - 1`
otherwise. Every table has `w` slots and lives in a block of memory of its own, named by a number;
a key selects its slot at height `n` by its `n`-th digit in base `w`.

* `Tree.lookup` follows a key to its entry, and depends on the key modulo `w ^ n` only;
* `Tree.modify` changes one entry in place;
* `Tree.blocks` lists the blocks of all tables, each after those of its subtrees;
* `Table.blocksBelow_set` says how that list changes with one slot.
-/

namespace RadixTree

universe u

/-- A table: the block it lives in and its slots. -/
structure Table (β : Type u) where
  block : ℕ
  slot : ℕ → Option β

namespace Table

variable {β : Type u}

/-- A table without entries. -/
def empty (block : ℕ) : Table β :=
  ⟨block, fun _ => none⟩

/-- Overwrite one slot. -/
def set (t : Table β) (i : ℕ) (o : Option β) : Table β :=
  { t with slot := Function.update t.slot i o }

/-- None of the `w` slots is in use. -/
def isEmpty (w : ℕ) (t : Table β) : Bool :=
  (List.range w).all fun i => (t.slot i).isNone

/-- The blocks of whatever the slots hold. -/
def blocksBelow (w : ℕ) (blocks : β → List ℕ) (t : Table β) : List ℕ :=
  (List.range w).flatMap fun i => (t.slot i).elim [] blocks

@[simp]
theorem set_block (t : Table β) (i : ℕ) (o : Option β) : (t.set i o).block = t.block := rfl

@[simp]
theorem set_slot (t : Table β) (i : ℕ) (o : Option β) :
    (t.set i o).slot = Function.update t.slot i o := rfl

theorem isEmpty_iff {w : ℕ} {t : Table β} : t.isEmpty w = true ↔ ∀ i < w, t.slot i = none := by
  simp [isEmpty]

/-- Seen from one slot, the blocks below are those of the slot and a rest that it has no part in. -/
theorem blocksBelow_set {w i : ℕ} (hi : i < w) (blocks : β → List ℕ) (t : Table β) :
    ∃ rest, (t.blocksBelow w blocks).Perm ((t.slot i).elim [] blocks ++ rest) ∧
      ∀ o, ((t.set i o).blocksBelow w blocks).Perm (o.elim [] blocks ++ rest) := by
  have hrange : (List.range w).Perm (i :: (List.range w).erase i) :=
    List.perm_cons_erase (List.mem_range.mpr hi)
  refine ⟨((List.range w).erase i).flatMap fun j => (t.slot j).elim [] blocks, ?_, fun o => ?_⟩
  · exact hrange.flatMap_right _
  · have hrest : ((List.range w).erase i).flatMap (fun j => ((t.set i o).slot j).elim [] blocks) =
        ((List.range w).erase i).flatMap fun j => (t.slot j).elim [] blocks := by
      refine List.flatMap_congr fun j hj => ?_
      have hne : j ≠ i := ((List.nodup_range).mem_erase_iff.mp hj).1
      rw [set_slot, Function.update_of_ne hne]
    refine (hrange.flatMap_right _).trans (List.Perm.of_eq ?_)
    rw [List.flatMap_cons, hrest, set_slot, Function.update_self]

theorem blocksBelow_of_isEmpty {w : ℕ} {t : Table β} (h : t.isEmpty w = true)
    (blocks : β → List ℕ) : t.blocksBelow w blocks = [] := by
  refine List.flatMap_eq_nil_iff.mpr fun i hi => ?_
  rw [isEmpty_iff.mp h i (List.mem_range.mp hi)]
  rfl

end Table

/-- Trees of depth `n` with entries in `α`. -/
def Tree (α : Type u) : ℕ → Type u
  | 0 => α
  | n + 1 => Table (Tree α n)

namespace Tree

variable {α : Type u} {w n : ℕ}

/-- A tree of positive depth is a table. -/
def table (t : Tree α (n + 1)) : Table (Tree α n) := t

/-- A table of trees is a tree. -/
def ofTable (t : Table (Tree α n)) : Tree α (n + 1) := t

@[simp]
theorem table_ofTable (t : Table (Tree α n)) : (ofTable t).table = t := rfl

/-- The entry under a key. -/
def lookup (w : ℕ) : (n : ℕ) → Tree α n → ℕ → Option α
  | 0, entry, _ => some entry
  | n + 1, t, key => (t.table.slot (key / w ^ n % w)).bind fun sub => lookup w n sub key

/-- Change the entry under a key, if there is one. -/
def modify (w : ℕ) : (n : ℕ) → Tree α n → ℕ → (α → α) → Tree α n
  | 0, entry, _, g => g entry
  | n + 1, t, key, g =>
    match t.table.slot (key / w ^ n % w) with
    | none => t
    | some sub => ofTable (t.table.set (key / w ^ n % w) (some (modify w n sub key g)))

/-- The blocks of all tables, each after those below it. -/
def blocks (w : ℕ) : (n : ℕ) → Tree α n → List ℕ
  | 0, _ => []
  | n + 1, t => t.table.blocksBelow w (blocks w n) ++ [t.table.block]

/-- Two keys agree in their low `n + 1` digits if they agree in the highest and the others. -/
theorem mod_pow_succ_eq_iff (w n k k' : ℕ) :
    k % w ^ (n + 1) = k' % w ^ (n + 1) ↔
      k / w ^ n % w = k' / w ^ n % w ∧ k % w ^ n = k' % w ^ n := by
  constructor
  · intro h
    have hdiv : k % w ^ (n + 1) / w ^ n = k' % w ^ (n + 1) / w ^ n := by rw [h]
    have hmod : k % w ^ (n + 1) % w ^ n = k' % w ^ (n + 1) % w ^ n := by rw [h]
    rw [Nat.pow_succ, Nat.mod_mul_right_div_self, Nat.mod_mul_right_div_self] at hdiv
    rw [Nat.pow_succ, Nat.mod_mul_right_mod, Nat.mod_mul_right_mod] at hmod
    exact ⟨hdiv, hmod⟩
  · rintro ⟨hdigit, hlow⟩
    rw [Nat.mod_pow_succ, Nat.mod_pow_succ, hdigit, hlow]

section Lemmas

variable {t : Tree α (n + 1)} {k k' i : ℕ}

theorem lookup_of_slot_none (h : t.table.slot (k / w ^ n % w) = none) :
    lookup w (n + 1) t k = none := by
  rw [lookup, h]
  rfl

theorem lookup_of_slot_some {sub : Tree α n} (h : t.table.slot (k / w ^ n % w) = some sub) :
    lookup w (n + 1) t k = lookup w n sub k := by
  rw [lookup, h]
  rfl

/-- A tree of empty tables has no entries. -/
theorem lookup_empty (block k : ℕ) :
    lookup w (n + 1) (ofTable (Table.empty block) : Tree α (n + 1)) k = none :=
  lookup_of_slot_none rfl

/-- If the subtree on the way to `k` answers like the old one except for `k`, so does the tree. -/
theorem lookup_set {o : Option (Tree α n)} {v : Option α}
    (h : ∀ k', (o.bind fun sub => lookup w n sub k') =
      if k' % w ^ n = k % w ^ n then v
      else (t.table.slot (k / w ^ n % w)).bind fun sub => lookup w n sub k') (k' : ℕ) :
    lookup w (n + 1) (ofTable (t.table.set (k / w ^ n % w) o)) k' =
      if k' % w ^ (n + 1) = k % w ^ (n + 1) then v else lookup w (n + 1) t k' := by
  by_cases hdigit : k' / w ^ n % w = k / w ^ n % w
  · -- the same slot: the subtrees decide
    have hsame : lookup w (n + 1) (ofTable (t.table.set (k / w ^ n % w) o)) k' =
        o.bind fun sub => lookup w n sub k' := by
      rw [lookup, table_ofTable, Table.set_slot, hdigit, Function.update_self]
    rw [hsame, h k', lookup, hdigit]
    simp only [mod_pow_succ_eq_iff, hdigit, true_and]
  · have hother : lookup w (n + 1) (ofTable (t.table.set (k / w ^ n % w) o)) k' =
        lookup w (n + 1) t k' := by
      rw [lookup, table_ofTable, Table.set_slot, Function.update_of_ne hdigit, lookup]
    rw [hother, if_neg]
    rw [mod_pow_succ_eq_iff]
    exact fun hand => hdigit hand.1

end Lemmas

/-- Changing an entry changes that entry only. -/
theorem lookup_modify (w : ℕ) (g : α → α) : ∀ (n : ℕ) (t : Tree α n) (k k' : ℕ),
    lookup w n (modify w n t k g) k' =
      if k' % w ^ n = k % w ^ n then (lookup w n t k).map g else lookup w n t k'
  | 0, entry, k, k' => by
    rw [Nat.pow_zero, Nat.mod_one, Nat.mod_one, if_pos rfl]
    rfl
  | n + 1, t, k, k' => by
    rw [modify]
    split
    · rename_i hslot
      rw [lookup_of_slot_none hslot]
      split_ifs with hk
      · rw [lookup, ((mod_pow_succ_eq_iff w n k' k).mp hk).1, hslot]
        rfl
      · rfl
    · rename_i sub hslot
      rw [lookup_of_slot_some hslot]
      refine lookup_set (fun k' => ?_) k'
      rw [hslot]
      exact lookup_modify w g n sub k k'

/-- Changing an entry leaves the tables where they are. -/
theorem blocks_modify (w : ℕ) (g : α → α) : ∀ (n : ℕ) (t : Tree α n) (k : ℕ),
    blocks w n (modify w n t k g) = blocks w n t
  | 0, _, _ => rfl
  | n + 1, t, k => by
    rw [modify]
    split
    · rfl
    · rename_i sub hslot
      rw [blocks, blocks, table_ofTable, Table.set_block]
      congr 1
      refine List.flatMap_congr fun i _ => ?_
      by_cases hi : i = k / w ^ n % w
      · rw [hi, Table.set_slot, Function.update_self, hslot]
        exact blocks_modify w g n sub k
      · rw [Table.set_slot, Function.update_of_ne hi]

/-- The digits of a key are slot numbers. -/
theorem digit_lt (hw : 0 < w) (k n : ℕ) : k / w ^ n % w < w :=
  Nat.mod_lt _ hw

/-- The blocks of a tree with one slot replaced. -/
theorem blocks_set (hw : 0 < w) (t : Tree α (n + 1)) (k : ℕ) :
    ∃ rest, (blocks w (n + 1) t).Perm
        ((t.table.slot (k / w ^ n % w)).elim [] (blocks w n) ++ rest) ∧
      ∀ o, (blocks w (n + 1) (ofTable (t.table.set (k / w ^ n % w) o))).Perm
        (o.elim [] (blocks w n) ++ rest) := by
  obtain ⟨rest, hold, hnew⟩ := Table.blocksBelow_set (digit_lt hw k n) (blocks w n) t.table
  refine ⟨rest ++ [t.table.block], ?_, fun o => ?_⟩
  · rw [blocks, ← List.append_assoc]
    exact hold.append_right _
  · rw [blocks, ← List.append_assoc, table_ofTable, Table.set_block]
    exact (hnew o).append_right _

end Tree

end RadixTree
