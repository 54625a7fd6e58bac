import Mathlib.Data.Nat.Init
import Mathlib.Logic.Function.Basic
import Mathlib.Order.Nat
import Mathlib.Tactic.Common

/-!
# Trees of tables in memory

A table is a frame of entries, and an entry means nothing, a table of the next depth, or a value for
every path that goes through it. `route` follows a path to its table at each depth, and `Maps` is
what it finds. While no two paths share a table beyond their common beginning (`Tree`), one store
into a table changes the paths through its slot and no others (`maps_store_of_not_agree`,
`maps_store_of_agree`), also where the entry that is stored leads to a table that was just filled.

Nothing here depends on a particular program.
-/

namespace TableTree

/-- What an entry means. -/
inductive Node (F V : Type*)
  | absent
  | link (table : F)
  | leaf (value : (ℕ → ℕ) → V)

/-- The table that an entry leads to. -/
def Node.link? {F V : Type*} : Node F V → Option F
  | .link table => some table
  | .absent | .leaf _ => none

/-- What the entries at each depth mean. There are no links at the bottom. -/
structure Layout (F E V : Type*) where
  depth : ℕ
  decode : ℕ → E → Node F V
  bottom : ∀ {d entry table}, decode d entry = .link table → d + 1 < depth

theorem Node.link?_eq_some {F V : Type*} {node : Node F V} {table : F} :
    node.link? = some table ↔ node = .link table := by
  cases node with
  | absent => simp [Node.link?]
  | link table => simp [Node.link?]
  | leaf value => simp [Node.link?]

/-- The first `n` indices of two paths are the same. -/
def Agree (n : ℕ) (p q : ℕ → ℕ) : Prop :=
  ∀ d < n, p d = q d

theorem Agree.symm {n : ℕ} {p q : ℕ → ℕ} (h : Agree n p q) : Agree n q p :=
  fun d hd => (h d hd).symm

theorem Agree.trans {n : ℕ} {p q r : ℕ → ℕ} (h : Agree n p q) (h' : Agree n q r) : Agree n p r :=
  fun d hd => (h d hd).trans (h' d hd)

theorem Agree.mono {n m : ℕ} {p q : ℕ → ℕ} (h : Agree n p q) (hle : m ≤ n) : Agree m p q :=
  fun d hd => h d (hd.trans_le hle)

theorem agree_succ {n : ℕ} {p q : ℕ → ℕ} : Agree (n + 1) p q ↔ Agree n p q ∧ p n = q n := by
  refine ⟨fun h => ⟨h.mono n.le_succ, h n n.lt_succ_self⟩, fun h d hd => ?_⟩
  obtain hlt | rfl := Nat.lt_succ_iff_lt_or_eq.mp hd
  · exact h.1 d hlt
  · exact h.2

/-- Store an entry. -/
def store {F E : Type*} [DecidableEq F] (mem : F → ℕ → E) (table : F) (i : ℕ) (entry : E) :
    F → ℕ → E :=
  Function.update mem table (Function.update (mem table) i entry)

section Store

variable {F E : Type*} [DecidableEq F] {mem : F → ℕ → E} {table f : F} {i j : ℕ} {entry : E}

@[simp]
theorem store_self : store mem table i entry table i = entry := by
  simp [store]

theorem store_of_ne (h : f ≠ table) : store mem table i entry f = mem f :=
  Function.update_of_ne h ..

theorem store_index_of_ne (h : j ≠ i) : store mem table i entry table j = mem table j := by
  simp [store, h]

end Store

variable {F E V : Type*} (L : Layout F E V)

/-- The table at depth `d` on a path. -/
def route (mem : F → ℕ → E) (root : F) (p : ℕ → ℕ) : ℕ → Option F
  | 0 => some root
  | d + 1 => (route mem root p d).bind fun table => (L.decode d (mem table (p d))).link?

/-- The value that a path leads to. -/
def Maps (mem : F → ℕ → E) (root : F) (p : ℕ → ℕ) (v : V) : Prop :=
  ∃ d table value, route L mem root p d = some table ∧
    L.decode d (mem table (p d)) = .leaf value ∧ value p = v

/-- Two paths share a table only at the end of their common beginning. -/
structure Tree (mem : F → ℕ → E) (root : F) : Prop where
  apart : ∀ {p q : ℕ → ℕ} {d e : ℕ} {table : F}, route L mem root p d = some table →
    route L mem root q e = some table → d = e ∧ Agree d p q

/-- The frames that are tables. -/
def Reached (mem : F → ℕ → E) (root table : F) : Prop :=
  ∃ p d, route L mem root p d = some table

variable {L} {mem mem' : F → ℕ → E} {root table f : F} {p q : ℕ → ℕ} {d e k : ℕ}
  {entry : E} {v w : V}

theorem route_succ_eq_some : route L mem root p (d + 1) = some f ↔
    ∃ table, route L mem root p d = some table ∧ L.decode d (mem table (p d)) = .link f := by
  simp [route, Option.bind_eq_some_iff, Node.link?_eq_some]

theorem route_of_agree (h : Agree d p q) : route L mem root p d = route L mem root q d := by
  induction d with
  | zero => rfl
  | succ d ih =>
    obtain ⟨hagree, hi⟩ := agree_succ.mp h
    rw [route, route, ih hagree, hi]

theorem route_none_of_le (h : route L mem root p d = none) (hle : d ≤ e) :
    route L mem root p e = none := by
  induction e, hle using Nat.le_induction with
  | base => exact h
  | succ e _ ih => rw [route, ih, Option.bind_none]

/-- The tables above one on a path. -/
theorem route_of_le (h : route L mem root p d = some table) (hle : e ≤ d) :
    ∃ f, route L mem root p e = some f := by
  rw [← Option.isSome_iff_exists, Option.isSome_iff_ne_none]
  intro hnone
  rw [route_none_of_le hnone hle] at h
  contradiction

/-- A path does not go on behind a leaf. -/
theorem depth_le_of_leaf {value : (ℕ → ℕ) → V} (h : route L mem root p d = some table)
    (hleaf : L.decode d (mem table (p d)) = .leaf value) (h' : route L mem root p e = some f) :
    e ≤ d := by
  by_contra hlt
  obtain ⟨g, hg⟩ := route_of_le h' (show d + 1 ≤ e by omega)
  obtain ⟨table', htable', hlink⟩ := route_succ_eq_some.mp hg
  rw [Option.some.inj (htable'.symm.trans h), hleaf] at hlink
  contradiction

theorem Maps.unique (h : Maps L mem root p v) (h' : Maps L mem root p w) : v = w := by
  obtain ⟨d, table, value, hroute, hleaf, rfl⟩ := h
  obtain ⟨e, f, value', hroute', hleaf', rfl⟩ := h'
  have hde : d = e := le_antisymm (depth_le_of_leaf hroute' hleaf' hroute)
    (depth_le_of_leaf hroute hleaf hroute')
  subst hde
  rw [Option.some.inj (hroute.symm.trans hroute'), hleaf'] at hleaf
  rw [Node.leaf.inj hleaf]

/-- What a path that leads to a leaf maps. -/
theorem maps_of_leaf {value : (ℕ → ℕ) → V} (h : route L mem root p d = some table)
    (hleaf : L.decode d (mem table (p d)) = .leaf value) : Maps L mem root p v ↔ value p = v := by
  refine ⟨fun hmaps => ?_, fun hv => ⟨d, table, value, h, hleaf, hv⟩⟩
  exact (Maps.unique hmaps ⟨d, table, value, h, hleaf, rfl⟩).symm

/-- A path that ends at an empty entry maps nothing. -/
theorem not_maps_of_absent (h : route L mem root p d = some table)
    (habsent : L.decode d (mem table (p d)) = .absent) :
    ¬Maps L mem root p v := by
  rintro ⟨e, f, value, hroute, hleaf, -⟩
  obtain hlt | heq | hgt := Nat.lt_trichotomy d e
  · obtain ⟨g, hg⟩ := route_of_le hroute hlt
    obtain ⟨table', htable', hlink⟩ := route_succ_eq_some.mp hg
    rw [Option.some.inj (htable'.symm.trans h), habsent] at hlink
    contradiction
  · subst heq
    rw [Option.some.inj (h.symm.trans hroute), hleaf] at habsent
    contradiction
  · exact absurd (depth_le_of_leaf hroute hleaf h) (not_le.mpr hgt)

/-- Routes are read off the tables. -/
theorem route_congr (h : ∀ f, Reached L mem root f → mem' f = mem f) :
    route L mem' root p d = route L mem root p d := by
  induction d with
  | zero => rfl
  | succ d ih =>
    rw [route, route, ih]
    cases hroute : route L mem root p d with
    | none => rfl
    | some f => rw [Option.bind_some, Option.bind_some, h f ⟨p, d, hroute⟩]

theorem maps_congr (h : ∀ f, Reached L mem root f → mem' f = mem f) :
    Maps L mem' root p v ↔ Maps L mem root p v := by
  refine exists_congr fun d => exists_congr fun f => exists_congr fun value => ?_
  rw [route_congr h]
  refine and_congr_right fun hroute => ?_
  rw [h f ⟨p, d, hroute⟩]

theorem tree_congr (h : ∀ f, Reached L mem root f → mem' f = mem f) (tree : Tree L mem root) :
    Tree L mem' root := by
  refine ⟨fun hp hq => ?_⟩
  rw [route_congr h] at hp hq
  exact tree.apart hp hq

theorem reached_congr (h : ∀ f, Reached L mem root f → mem' f = mem f) :
    Reached L mem' root table ↔ Reached L mem root table :=
  exists_congr fun p => exists_congr fun d => by rw [route_congr h]

/-- Two roots that agree in one slot agree on all paths through it. -/
theorem maps_of_top {root' : F} (h : mem root (p 0) = mem root' (p 0))
    (hmaps : Maps L mem root p v) :
    Maps L mem root' p v := by
  have hroute : ∀ d, route L mem root p (d + 1) = route L mem root' p (d + 1) := by
    intro d
    induction d with
    | zero => rw [route, route, route, route, Option.bind_some, Option.bind_some, h]
    | succ d ih =>
      change (route L mem root p (d + 1)).bind _ = (route L mem root' p (d + 1)).bind _
      rw [ih]
  obtain ⟨d, table, value, hpath, hleaf, hv⟩ := hmaps
  cases d with
  | zero =>
    obtain rfl := Option.some.inj hpath
    exact ⟨0, root', value, rfl, h ▸ hleaf, hv⟩
  | succ d => exact ⟨d + 1, table, value, (hroute d).symm.trans hpath, hleaf, hv⟩

section Write

variable [DecidableEq F]

/-- A path does not use a slot that it does not agree with. -/
theorem Tree.store_of_route (tree : Tree L mem root) (hp : route L mem root p k = some table)
    (hq : route L mem root q d = some f) (hoff : d < k ∨ ¬Agree (k + 1) q p) :
    store mem table (p k) entry f (q d) = mem f (q d) := by
  by_cases hf : f = table
  · subst hf
    obtain ⟨rfl, hagree⟩ := tree.apart hq hp
    refine store_index_of_ne fun hi => ?_
    exact hoff.elim (lt_irrefl _) fun hnot => hnot (agree_succ.mpr ⟨hagree, hi⟩)
  · rw [store_of_ne hf]

theorem Tree.route_store_off (tree : Tree L mem root) (hp : route L mem root p k = some table)
    (hoff : d ≤ k ∨ ¬Agree (k + 1) q p) :
    route L (store mem table (p k) entry) root q d = route L mem root q d := by
  induction d with
  | zero => rfl
  | succ d ih =>
    rw [route, route, ih (hoff.imp_left (by omega))]
    cases hq : route L mem root q d with
    | none => rfl
    | some f => rw [Option.bind_some, Option.bind_some,
      tree.store_of_route hp hq (hoff.imp_left (by omega))]

/-- The entry may be stored: if it leads to a table, that is a new one without links. -/
def Fresh (L : Layout F E V) (mem : F → ℕ → E) (root : F) (k : ℕ) (entry : E) : Prop :=
  ∀ f, L.decode k entry = .link f → ¬Reached L mem root f ∧
    ∀ j g, L.decode (k + 1) (mem f j) ≠ .link g

theorem Tree.route_store_on (tree : Tree L mem root) (hp : route L mem root p k = some table)
    (hon : Agree (k + 1) q p) :
    route L (store mem table (p k) entry) root q (k + 1) = (L.decode k entry).link? := by
  rw [route_of_agree hon, route, tree.route_store_off hp (.inl le_rfl), hp,
    Option.bind_some, store_self]

theorem Tree.route_store_end (tree : Tree L mem root) (hp : route L mem root p k = some table)
    (hfresh : Fresh L mem root k entry) (hon : Agree (k + 1) q p) (hd : k + 1 < d) :
    route L (store mem table (p k) entry) root q d = none := by
  refine route_none_of_le (d := k + 2) ?_ hd
  rw [route, tree.route_store_on hp hon]
  cases hlink : (L.decode k entry).link? with
  | none => rfl
  | some f =>
    obtain ⟨hnew, hends⟩ := hfresh f (Node.link?_eq_some.mp hlink)
    have hne : f ≠ table := fun heq => hnew ⟨p, k, heq ▸ hp⟩
    rw [Option.bind_some, store_of_ne hne, ← Option.not_isSome_iff_eq_none,
      Option.isSome_iff_exists]
    rintro ⟨g, hg⟩
    exact hends _ g (Node.link?_eq_some.mp hg)

/-- Where a path goes after a store. -/
theorem Tree.route_store_cases (tree : Tree L mem root) (hp : route L mem root p k = some table)
    (hfresh : Fresh L mem root k entry)
    (h : route L (store mem table (p k) entry) root q d = some f) :
    route L mem root q d = some f ∧ (d ≤ k ∨ ¬Agree (k + 1) q p) ∨
      Agree (k + 1) q p ∧ d = k + 1 ∧ L.decode k entry = .link f := by
  by_cases hoff : d ≤ k ∨ ¬Agree (k + 1) q p
  · exact .inl ⟨(tree.route_store_off hp hoff).symm.trans h, hoff⟩
  · rw [not_or, not_le, not_not] at hoff
    obtain rfl | hlt := eq_or_lt_of_le (Nat.succ_le_iff.mpr hoff.1)
    · rw [Nat.succ_eq_add_one, tree.route_store_on hp hoff.2] at h
      exact .inr ⟨hoff.2, rfl, Node.link?_eq_some.mp h⟩
    · rw [tree.route_store_end hp hfresh hoff.2 hlt] at h
      contradiction

/-- What a path finds after a store: the entry that was stored, an entry as it was, or an entry of
the new table. -/
theorem Tree.slot_store_cases (tree : Tree L mem root) (hp : route L mem root p k = some table)
    (hfresh : Fresh L mem root k entry)
    (h : route L (store mem table (p k) entry) root q d = some f) :
    d = k ∧ store mem table (p k) entry f (q d) = entry ∨
      route L mem root q d = some f ∧ store mem table (p k) entry f (q d) = mem f (q d) ∨
      d = k + 1 ∧ L.decode k entry = .link f ∧
        store mem table (p k) entry f (q d) = mem f (q d) := by
  obtain ⟨hq, hoff⟩ | ⟨-, rfl, hlink⟩ := tree.route_store_cases hp hfresh h
  · by_cases hslot : d = k ∧ Agree (k + 1) q p
    · obtain ⟨rfl, hon⟩ := hslot
      obtain rfl := Option.some.inj (hq.symm.trans ((route_of_agree (hon.mono d.le_succ)).trans hp))
      rw [hon d d.lt_succ_self]
      exact .inl ⟨rfl, store_self⟩
    · refine .inr (.inl ⟨hq, tree.store_of_route hp hq ?_⟩)
      by_cases hdk : d = k
      · exact .inr fun hon => hslot ⟨hdk, hon⟩
      · exact hoff.imp_left fun hle => lt_of_le_of_ne hle hdk
  · have hne : f ≠ table := fun heq => (hfresh f hlink).1 ⟨p, k, heq ▸ hp⟩
    exact .inr (.inr ⟨rfl, hlink, by rw [store_of_ne hne]⟩)

/-- A store keeps the tree. -/
theorem Tree.store (tree : Tree L mem root) (hp : route L mem root p k = some table)
    (hfresh : Fresh L mem root k entry) : Tree L (store mem table (p k) entry) root := by
  refine ⟨fun {q r d e f} hq hr => ?_⟩
  obtain ⟨hq, -⟩ | ⟨hqon, rfl, hqlink⟩ := tree.route_store_cases hp hfresh hq
  · obtain ⟨hr, -⟩ | ⟨-, rfl, hrlink⟩ := tree.route_store_cases hp hfresh hr
    · exact tree.apart hq hr
    · exact absurd ⟨q, d, hq⟩ (hfresh f hrlink).1
  · obtain ⟨hr, -⟩ | ⟨hron, rfl, -⟩ := tree.route_store_cases hp hfresh hr
    · exact absurd ⟨r, e, hr⟩ (hfresh f hqlink).1
    · exact ⟨rfl, hqon.trans hron.symm⟩

/-- The tables after a store. -/
theorem Tree.reached_store (tree : Tree L mem root) (hp : route L mem root p k = some table)
    (hfresh : Fresh L mem root k entry)
    (h : Reached L (TableTree.store mem table (p k) entry) root f) :
    Reached L mem root f ∨ L.decode k entry = .link f := by
  obtain ⟨q, d, hq⟩ := h
  obtain ⟨hq, -⟩ | ⟨-, -, hlink⟩ := tree.route_store_cases hp hfresh hq
  · exact .inl ⟨q, d, hq⟩
  · exact .inr hlink

/-- The paths that do not go through the slot find what they found before. -/
theorem Tree.maps_store_of_not_agree (tree : Tree L mem root)
    (hp : route L mem root p k = some table)
    (hoff : ¬Agree (k + 1) q p) :
    Maps L (TableTree.store mem table (p k) entry) root q v ↔ Maps L mem root q v := by
  refine exists_congr fun d => exists_congr fun f => exists_congr fun value => ?_
  rw [tree.route_store_off hp (.inr hoff)]
  refine and_congr_right fun hq => ?_
  rw [tree.store_of_route hp hq (.inr hoff)]

/-- The paths through the slot find what the entry says, or the table that it leads to. -/
theorem Tree.maps_store_of_agree (tree : Tree L mem root) (hp : route L mem root p k = some table)
    (hfresh : Fresh L mem root k entry) (hon : Agree (k + 1) q p) :
    Maps L (TableTree.store mem table (p k) entry) root q v ↔
      (∃ value, L.decode k entry = .leaf value ∧ value q = v) ∨
        ∃ f value, L.decode k entry = .link f ∧ L.decode (k + 1) (mem f (q (k + 1))) = .leaf value ∧
          value q = v := by
  have hslot : route L (TableTree.store mem table (p k) entry) root q k = some table := by
    rw [tree.route_store_off hp (.inl le_rfl), route_of_agree (hon.mono k.le_succ), hp]
  have hentry : TableTree.store mem table (p k) entry table (q k) = entry := by
    rw [hon k k.lt_succ_self, store_self]
  cases hdecode : L.decode k entry with
  | absent =>
    refine iff_of_false (not_maps_of_absent hslot (by rw [hentry, hdecode])) ?_
    rintro (⟨value, h, -⟩ | ⟨f, value, h, -⟩) <;> contradiction
  | leaf value =>
    rw [maps_of_leaf hslot (by rw [hentry, hdecode])]
    constructor
    · exact fun hv => .inl ⟨value, rfl, hv⟩
    · rintro (⟨value', h, hv⟩ | ⟨f, value', h, -⟩)
      · rwa [Node.leaf.inj h]
      · contradiction
  | link f =>
    obtain ⟨hnew, hends⟩ := hfresh f hdecode
    have hne : f ≠ table := fun heq => hnew ⟨p, k, heq ▸ hp⟩
    have hnext : route L (TableTree.store mem table (p k) entry) root q (k + 1) = some f := by
      rw [tree.route_store_on hp hon, hdecode, Node.link?]
    have hsub : TableTree.store mem table (p k) entry f = mem f := store_of_ne hne
    cases hleaf : L.decode (k + 1) (mem f (q (k + 1))) with
    | absent =>
      refine iff_of_false (not_maps_of_absent hnext (by rw [hsub, hleaf])) ?_
      rintro (⟨value, h, -⟩ | ⟨g, value, h, h', -⟩)
      · contradiction
      · obtain rfl := Node.link.inj h
        rw [hleaf] at h'
        contradiction
    | link g => exact absurd hleaf (hends _ g)
    | leaf value =>
      rw [maps_of_leaf hnext (by rw [hsub, hleaf])]
      constructor
      · exact fun hv => .inr ⟨f, value, rfl, hleaf, hv⟩
      · rintro (⟨value', h, -⟩ | ⟨g, value', h, h', hv⟩)
        · contradiction
        · obtain rfl := Node.link.inj h
          rw [hleaf] at h'
          rwa [Node.leaf.inj h']

end Write

end TableTree
