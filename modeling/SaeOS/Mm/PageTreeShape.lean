import Mathlib.Tactic.IntervalCases
import Mathlib.Tactic.NormNum
import SaeOS.Mm.PageTree

/-!
# The tree that page tables form

`route` follows an address to its table at each depth, `slot` is its entry there, and `translation`
is the entry that a page walk ends at. `Tree` says that the tables below the user half of a root
form a tree: two addresses share a table exactly as far as their indices agree, every table has the
one reference of its only link, and entries that are not present are zero.

One store into a table on the way to `p` changes the way of the addresses that agree with `p` down
to that slot, and of no other (`route_write`, `slot_write`).
-/

namespace SaeOS.PageTree

open Frame Paging

/-- Addresses of the user half. -/
abbrev UserAddress := { virtualAddress : ℕ // virtualAddress < lowerHalfEnd }

/-- The table that an entry leads to. -/
def Entry.table? (entry : Entry) : Option ℕ :=
  if entry.bits.present && !entry.bits.huge then some entry.frame else none

theorem Entry.table?_eq_some_iff {entry : Entry} {f : ℕ} :
    entry.table? = some f ↔
      entry.bits.present = true ∧ entry.bits.huge = false ∧ entry.frame = f := by
  unfold Entry.table?
  split_ifs with h
  · simp only [Bool.and_eq_true, Bool.not_eq_true'] at h
    simp [h]
  · simp only [Bool.and_eq_true, Bool.not_eq_true', not_and] at h
    simp only [false_iff, not_and]
    exact fun hp hh => absurd hh (h hp)

/-- The first `n` indices of two addresses are the same. -/
def Agree (n va vb : ℕ) : Prop :=
  ∀ d < n, index va d = index vb d

instance (n va vb : ℕ) : Decidable (Agree n va vb) :=
  inferInstanceAs (Decidable (∀ d < n, index va d = index vb d))

theorem Agree.refl (n va : ℕ) : Agree n va va := fun _ _ => rfl

theorem Agree.symm {n va vb : ℕ} (h : Agree n va vb) : Agree n vb va :=
  fun d hd => (h d hd).symm

theorem Agree.trans {n va vb vc : ℕ} (h : Agree n va vb) (h' : Agree n vb vc) : Agree n va vc :=
  fun d hd => (h d hd).trans (h' d hd)

theorem Agree.mono {n m va vb : ℕ} (h : Agree n va vb) (hm : m ≤ n) : Agree m va vb :=
  fun d hd => h d (lt_of_lt_of_le hd hm)

theorem agree_succ_iff {n va vb : ℕ} :
    Agree (n + 1) va vb ↔ Agree n va vb ∧ index va n = index vb n := by
  refine ⟨fun h => ⟨h.mono n.le_succ, h n n.lt_succ_self⟩, fun h d hd => ?_⟩
  rcases Nat.lt_succ_iff_lt_or_eq.mp hd with hlt | rfl
  · exact h.1 d hlt
  · exact h.2

/-- All four indices together are the page. -/
theorem agree_four_iff {va vb : UserAddress} :
    Agree 4 va vb ↔ va.1 / pageSize = vb.1 / pageSize := by
  obtain ⟨va, hva⟩ := va
  obtain ⟨vb, hvb⟩ := vb
  have hlimit : lowerHalfEnd = 140737488355328 := by decide
  rw [hlimit] at hva hvb
  simp only [Agree, index, tableSlots, pageSize]
  constructor
  · intro h
    have h0 := h 0 (by decide)
    have h1 := h 1 (by decide)
    have h2 := h 2 (by decide)
    have h3 := h 3 (by decide)
    norm_num at h0 h1 h2 h3
    omega
  · intro h d hd
    interval_cases d <;> norm_num <;> omega

theorem index_lt (va d : ℕ) : index va d < tableSlots :=
  Nat.mod_lt _ (by decide)

namespace Machine

variable {s s' : Machine} {root table : ℕ} {d k : ℕ}

@[simp]
theorem write_mem_self (s : Machine) (table i : ℕ) (entry : Entry) :
    (s.write table i entry).mem table i = entry := by
  simp [write]

theorem write_mem_of_ne (s : Machine) (i : ℕ) (entry : Entry) {f table : ℕ} (h : f ≠ table) :
    (s.write table i entry).mem f = s.mem f :=
  Function.update_of_ne h _ _

theorem write_entry_of_ne (s : Machine) (table : ℕ) (entry : Entry) {i j : ℕ} (h : j ≠ i) :
    (s.write table i entry).mem table j = s.mem table j := by
  simp [write, h]

/-- The table at depth `d` on the way to an address. -/
def route (s : Machine) (root va : ℕ) : ℕ → Option ℕ
  | 0 => some root
  | d + 1 => (s.route root va d).bind fun table => (s.mem table (index va d)).table?

/-- The entry at depth `d` on the way to an address. -/
def slot (s : Machine) (root va d : ℕ) : Option Entry :=
  (s.route root va d).map fun table => s.mem table (index va d)

/-- A present entry at which a page walk ends: a page, or a huge page on the way. -/
def ends (d : ℕ) (entry : Option Entry) : Option (ℕ × Entry) :=
  entry.bind fun entry =>
    if entry.bits.present && (d == 3 || entry.bits.huge) then some (d, entry) else none

/-- The entry that an address is translated with, and its depth. -/
def translation (s : Machine) (root va : ℕ) : Option (ℕ × Entry) :=
  (ends 0 (s.slot root va 0)).or ((ends 1 (s.slot root va 1)).or
    ((ends 2 (s.slot root va 2)).or (ends 3 (s.slot root va 3))))

theorem route_succ (s : Machine) (root va d : ℕ) :
    s.route root va (d + 1) = (s.slot root va d).bind Entry.table? := by
  rw [route, slot, Option.bind_map]
  rfl

/-- Addresses that agree share their tables. -/
theorem route_of_agree (s : Machine) (root : ℕ) {va vb : ℕ} (h : Agree d va vb) :
    s.route root va d = s.route root vb d := by
  induction d with
  | zero => rfl
  | succ d ih =>
    obtain ⟨hagree, hi⟩ := agree_succ_iff.mp h
    rw [route, route, ih hagree, hi]

theorem slot_of_agree (s : Machine) (root : ℕ) {va vb : ℕ} (h : Agree (d + 1) va vb) :
    s.slot root va d = s.slot root vb d := by
  obtain ⟨hagree, hi⟩ := agree_succ_iff.mp h
  rw [slot, slot, route_of_agree s root hagree, hi]

theorem route_none_of_le {va e : ℕ} (h : s.route root va d = none) (hde : d ≤ e) :
    s.route root va e = none := by
  induction e, hde using Nat.le_induction with
  | base => exact h
  | succ e _ ih => rw [route, ih, Option.bind_none]

/-- A way that goes on does so through a link. -/
theorem slot_of_route_succ {va : ℕ} (h : s.route root va (d + 1) = some table) :
    ∃ entry : Entry, s.slot root va d = some entry ∧ entry.table? = some table := by
  rw [route_succ] at h
  exact Option.bind_eq_some_iff.mp h

/-- The tables above one on the way. -/
theorem route_of_le {va e : ℕ} (h : s.route root va d = some table) (hed : e ≤ d) :
    ∃ f, s.route root va e = some f := by
  by_contra hnone
  have hnone : s.route root va e = none := by
    cases hroute : s.route root va e with
    | none => rfl
    | some f => exact absurd ⟨f, hroute⟩ hnone
  rw [route_none_of_le hnone hed] at h
  cases h

theorem slot_of_route {va : ℕ} (h : s.route root va d = some table) :
    s.slot root va d = some (s.mem table (index va d)) := by
  rw [slot, h]
  rfl

/-- Ways are read off the entries alone. -/
theorem route_congr_mem (h : s'.mem = s.mem) (root va d : ℕ) :
    s'.route root va d = s.route root va d := by
  induction d with
  | zero => rfl
  | succ d ih => rw [route, route, ih, h]

theorem slot_congr_mem (h : s'.mem = s.mem) (root va d : ℕ) :
    s'.slot root va d = s.slot root va d := by
  rw [slot, slot, route_congr_mem h, h]

theorem ends_absent (d : ℕ) {entry : Entry} (h : entry.bits.present = false) :
    ends d (some entry) = none := by
  simp [ends, h]

theorem ends_of_table (hd : d < 3) {entry : Entry} {f : ℕ} (h : entry.table? = some f) :
    ends d (some entry) = none := by
  have hd : d ≠ 3 := by omega
  simp [ends, (Entry.table?_eq_some_iff.mp h).2.1, hd]

theorem translation_congr {va : ℕ}
    (h : ∀ d ≤ 3, ends d (s'.slot root va d) = ends d (s.slot root va d)) :
    s'.translation root va = s.translation root va := by
  unfold translation
  rw [h 0 (by omega), h 1 (by omega), h 2 (by omega), h 3 le_rfl]

end Machine

open Machine

/-- The tables below the user half of a root form a tree. -/
structure Tree (s : Machine) (root : ℕ) : Prop where
  apart : ∀ {va vb : UserAddress} {d e f : ℕ}, d ≤ 3 → e ≤ 3 → s.route root va d = some f →
    s.route root vb e = some f → d = e ∧ Agree d va vb
  held : ∀ {va : UserAddress} {d f : ℕ}, d ≤ 3 → s.route root va d = some f →
    s.pool.refcount f = 1 ∧ s.pool.tracked f = true
  cleared : ∀ {va : UserAddress} {d : ℕ} {entry : Entry}, d ≤ 3 → s.slot root va d = some entry →
    entry.bits.present = false → entry = {}
  /-- There are no huge pages in a PML4. -/
  root_small : ∀ va : UserAddress, (s.mem root (index va 0)).bits.huge = false

namespace Tree

variable {s s' : Machine} {root table d k : ℕ} {entry : Entry} {p va : UserAddress}

theorem refcount_ne_zero (tree : Tree s root) (hd : d ≤ 3) (h : s.route root va d = some table) :
    s.pool.refcount table ≠ 0 := by
  rw [(tree.held hd h).1]
  exact Nat.one_ne_zero

/-- The way of an address does not go through a slot that it does not agree with. -/
theorem mem_write_of_route (tree : Tree s root) (hk : k ≤ 3) (hp : s.route root p k = some table)
    {f : ℕ} (hd : d ≤ 3) (h : s.route root va d = some f)
    (hoff : d < k ∨ ¬ Agree (k + 1) va p) :
    (s.write table (index p k) entry).mem f (index va d) = s.mem f (index va d) := by
  by_cases hf : f = table
  rotate_left
  · rw [write_mem_of_ne _ _ _ hf]
  subst hf
  obtain ⟨rfl, hagree⟩ := tree.apart hd hk h hp
  refine write_entry_of_ne _ _ _ fun hi => ?_
  rcases hoff with hlt | hnot
  · exact lt_irrefl _ hlt
  · exact hnot (agree_succ_iff.mpr ⟨hagree, hi⟩)

theorem route_write_off (tree : Tree s root) (hk : k ≤ 3) (hp : s.route root p k = some table)
    (hd : d ≤ 3) (hoff : d ≤ k ∨ ¬ Agree (k + 1) va p) :
    (s.write table (index p k) entry).route root va d = s.route root va d := by
  induction d with
  | zero => rfl
  | succ d ih =>
    have ih := ih (by omega) (hoff.imp_left (by omega))
    rw [route, route, ih]
    cases h : s.route root va d with
    | none => rfl
    | some f =>
      rw [Option.bind_some, Option.bind_some,
        tree.mem_write_of_route hk hp (by omega) h (hoff.imp_left (by omega))]

theorem slot_write_off (tree : Tree s root) (hk : k ≤ 3) (hp : s.route root p k = some table)
    (hd : d ≤ 3) (hoff : d < k ∨ ¬ Agree (k + 1) va p) :
    (s.write table (index p k) entry).slot root va d = s.slot root va d := by
  rw [slot, slot, tree.route_write_off hk hp hd (hoff.imp_left le_of_lt)]
  cases h : s.route root va d with
  | none => rfl
  | some f => rw [Option.map_some, Option.map_some, tree.mem_write_of_route hk hp hd h hoff]

theorem slot_write_on (tree : Tree s root) (hk : k ≤ 3) (hp : s.route root p k = some table)
    (hon : Agree (k + 1) va p) :
    (s.write table (index p k) entry).slot root va k = some entry := by
  rw [slot_of_agree _ _ hon, slot, tree.route_write_off hk hp hk (Or.inl le_rfl), hp,
    Option.map_some, write_mem_self]

/-- The ways after a store to the slot of `p` at depth `k`: only those through that slot change,
and they go as far as the stored entry leads. -/
theorem route_write (tree : Tree s root) (hk : k ≤ 3) (hp : s.route root p k = some table)
    (hnew : ∀ f, k < 3 → entry.table? = some f → f ≠ table ∧ s.mem f = fun _ => {}) (hd : d ≤ 3) :
    (s.write table (index p k) entry).route root va d =
      if Agree (k + 1) va p ∧ k < d then if d = k + 1 then entry.table? else none
      else s.route root va d := by
  split_ifs with hon hnext
  · subst hnext
    rw [route_succ, tree.slot_write_on hk hp hon.1, Option.bind_some]
  · -- what the entry leads to is empty, so no way goes further
    have hfirst : (s.write table (index p k) entry).route root va (k + 1) = entry.table? := by
      rw [route_succ, tree.slot_write_on hk hp hon.1, Option.bind_some]
    refine route_none_of_le (d := k + 2) ?_ (by omega)
    rw [route, hfirst]
    cases h : entry.table? with
    | none => rfl
    | some f =>
      obtain ⟨hne, hzero⟩ := hnew f (by omega) h
      rw [Option.bind_some, write_mem_of_ne _ _ _ hne, hzero]
      rfl
  · refine tree.route_write_off hk hp hd ?_
    by_cases hle : d ≤ k
    · exact Or.inl hle
    · exact Or.inr fun hagree => hon ⟨hagree, by omega⟩

/-- The entries on the way after a store to the slot of `p` at depth `k`. -/
theorem slot_write (tree : Tree s root) (hk : k ≤ 3) (hp : s.route root p k = some table)
    (hnew : ∀ f, k < 3 → entry.table? = some f → f ≠ table ∧ s.mem f = fun _ => {}) (hd : d ≤ 3) :
    (s.write table (index p k) entry).slot root va d =
      if Agree (k + 1) va p ∧ k ≤ d then
        if d = k then some entry
        else if d = k + 1 then entry.table?.map fun _ => {} else none
      else s.slot root va d := by
  split_ifs with hon hself hnext
  · subst hself
    exact tree.slot_write_on hk hp hon.1
  · subst hnext
    rw [slot, tree.route_write hk hp hnew hd, if_pos ⟨hon.1, k.lt_succ_self⟩, if_pos rfl]
    cases h : entry.table? with
    | none => rfl
    | some f =>
      obtain ⟨hne, hzero⟩ := hnew f (by omega) h
      rw [Option.map_some, Option.map_some, write_mem_of_ne _ _ _ hne, hzero]
  · rw [slot, tree.route_write hk hp hnew hd, if_pos ⟨hon.1, by omega⟩, if_neg hnext]
    rfl
  · refine tree.slot_write_off hk hp hd ?_
    by_cases hlt : d < k
    · exact Or.inl hlt
    · exact Or.inr fun hagree => hon ⟨hagree, by omega⟩

end Tree

/-- Nothing that a frame in use holds has changed, nor how often it is referred to. -/
structure Undisturbed (s s' : Machine) : Prop where
  mem : ∀ f, s.pool.refcount f ≠ 0 → s'.mem f = s.mem f
  refcount : ∀ f, s.pool.refcount f ≠ 0 → s'.pool.refcount f = s.pool.refcount f
  tracked : s'.pool.tracked = s.pool.tracked

section Undisturbed

variable {s s' : Machine} {root d : ℕ} {va : UserAddress}

theorem Undisturbed.route (h : Undisturbed s s') (tree : Tree s root) (hd : d ≤ 4) :
    s'.route root va d = s.route root va d := by
  induction d with
  | zero => rfl
  | succ d ih =>
    rw [Machine.route, Machine.route, ih (by omega)]
    cases hroute : s.route root va d with
    | none => rfl
    | some f =>
      rw [Option.bind_some, Option.bind_some,
        h.mem f (tree.refcount_ne_zero (by omega) hroute)]

theorem Undisturbed.slot (h : Undisturbed s s') (tree : Tree s root) (hd : d ≤ 3) :
    s'.slot root va d = s.slot root va d := by
  rw [Machine.slot, Machine.slot, h.route tree (by omega)]
  cases hroute : s.route root va d with
  | none => rfl
  | some f =>
    rw [Option.map_some, Option.map_some, h.mem f (tree.refcount_ne_zero hd hroute)]

theorem Undisturbed.tree (h : Undisturbed s s') (tree : Tree s root) : Tree s' root where
  apart hd he hva hvb := by
    rw [h.route tree (by omega)] at hva hvb
    exact tree.apart hd he hva hvb
  held hd hva := by
    rw [h.route tree (by omega)] at hva
    rw [h.refcount _ (tree.refcount_ne_zero hd hva), h.tracked]
    exact tree.held hd hva
  cleared hd hslot := by
    rw [h.slot tree hd] at hslot
    exact tree.cleared hd hslot
  root_small va := by
    have hroot : s.route root va 0 = some root := rfl
    rw [h.mem root (tree.refcount_ne_zero (Nat.zero_le 3) hroot)]
    exact tree.root_small va

end Undisturbed

end SaeOS.PageTree
