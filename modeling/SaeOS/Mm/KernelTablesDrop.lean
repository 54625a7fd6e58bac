import SaeOS.Mm.KernelTablesMap

/-!
# Dropping the lower half

`free_table_tree` gives every table below a frame back to the frame allocator, once each, and
`drop_lower_half` does so for the lower half of the root. What the kernel half maps does not change.
-/

namespace SaeOS.KernelTables

open TableTree Machine

/-- The tables at and below the one at depth `d` of a path. -/
def Under (s : Machine) (p : ℕ → ℕ) (d : ℕ) (frame : Word) : Prop :=
  ∃ q e, d ≤ e ∧ Agree d q p ∧ Bounded q ∧ route layout s.mem s.root q e = some frame

/-- The tables below the first `m` slots of the one at depth `d` of a path. -/
def Behind (s : Machine) (p : ℕ → ℕ) (d m : ℕ) (frame : Word) : Prop :=
  ∃ q e, d < e ∧ Agree d q p ∧ q d < m ∧ Bounded q ∧ route layout s.mem s.root q e = some frame

variable {s₀ s s' : Machine} {p q : ℕ → ℕ} {d e m : ℕ} {table frame f g : Word}
  {freed freed' : List Word}

theorem agree_update {i : ℕ} : Agree (d + 1) q (Function.update p d i) ↔ Agree d q p ∧ q d = i := by
  rw [agree_succ, Function.update_self]
  refine and_congr_left fun _ => forall₂_congr fun j hj => ?_
  rw [Function.update_of_ne hj.ne]

theorem Bounded.update {i : ℕ} (h : Bounded p) (hi : i < 512) :
    Bounded (Function.update p d i) := by
  intro j
  by_cases hj : j = d
  · subst hj
    rwa [Function.update_self]
  · rw [Function.update_of_ne hj]
    exact h j

theorem behind_succ (hm : m < 512) :
    Behind s p d (m + 1) g ↔ Under s (Function.update p d m) (d + 1) g ∨ Behind s p d m g := by
  constructor
  · rintro ⟨q, e, hlt, hagree, hslot, hq, hroute⟩
    obtain hslot | heq := Nat.lt_succ_iff_lt_or_eq.mp hslot
    · exact .inr ⟨q, e, hlt, hagree, hslot, hq, hroute⟩
    · exact .inl ⟨q, e, hlt, agree_update.mpr ⟨hagree, heq⟩, hq, hroute⟩
  · rintro (⟨q, e, hle, hagree, hq, hroute⟩ | ⟨q, e, hlt, hagree, hslot, hq, hroute⟩)
    · obtain ⟨hhead, rfl⟩ := agree_update.mp hagree
      exact ⟨q, e, hle, hhead, Nat.lt_succ_self _, hq, hroute⟩
    · exact ⟨q, e, hlt, hagree, Nat.lt_succ_of_lt hslot, hq, hroute⟩

/-- A table and what is behind all of its slots. -/
theorem under_iff (hp : Bounded p) (hroute : route layout s.mem s.root p d = some table) :
    Under s p d g ↔ g = table ∨ Behind s p d 512 g := by
  constructor
  · rintro ⟨q, e, hle, hagree, hq, hg⟩
    obtain rfl | hlt := eq_or_lt_of_le hle
    · rw [route_of_agree hagree, hroute] at hg
      exact .inl (Option.some.inj hg).symm
    · exact .inr ⟨q, e, hlt, hagree, hq d, hq, hg⟩
  · rintro (rfl | ⟨q, e, hlt, hagree, -, hq, hg⟩)
    · exact ⟨p, d, le_rfl, fun _ _ => rfl, hp, hroute⟩
    · exact ⟨q, e, hlt.le, hagree, hq, hg⟩

/-- The table itself is not behind its slots. -/
theorem not_behind_self (tree : Tree layout s.mem s.root)
    (hroute : route layout s.mem s.root p d = some table) :
    ¬Behind s p d m table := by
  rintro ⟨q, e, hlt, -, -, -, hq⟩
  exact hlt.ne (tree.apart hroute hq).1

/-- Different slots lead to different tables. -/
theorem not_behind_of_under (tree : Tree layout s.mem s.root)
    (h : Under s (Function.update p d m) (d + 1) g) :
    ¬Behind s p d m g := by
  rintro ⟨q, e, hlt, -, hslot, -, hq⟩
  obtain ⟨q', e', hle, hagree, -, hq'⟩ := h
  obtain ⟨-, hsame⟩ := tree.apart hq hq'
  rw [hsame d hlt, (agree_update.mp hagree).2] at hslot
  exact lt_irrefl _ hslot

/-- Tables are freed, and other frames are left alone. -/
structure Frees (s s' : Machine) (freed : List Word) : Prop where
  root_eq : s'.root = s.root
  frozen_eq : s'.frozen = s.frozen
  dropped_eq : s'.lowerHalfDropped = s.lowerHalfDropped
  free_eq : s'.free = freed ++ s.free
  nodup : freed.Nodup
  others : ∀ g ∉ freed, s'.mem g = s.mem g

/-- The loop over the slots of a table after the first `m`. -/
structure Clears (s₀ s s' : Machine) (p : ℕ → ℕ) (d : ℕ) (table : Word) (m : ℕ)
    (freed : List Word) : Prop where
  root_eq : s'.root = s.root
  frozen_eq : s'.frozen = s.frozen
  dropped_eq : s'.lowerHalfDropped = s.lowerHalfDropped
  free_eq : s'.free = freed ++ s.free
  nodup : freed.Nodup
  mem_iff : ∀ g, g ∈ freed ↔ Behind s₀ p d m g
  others : ∀ g ∉ freed, g ≠ table → s'.mem g = s.mem g
  rest : ∀ i, m ≤ i → s'.mem table i = s.mem table i
  cleared : ∀ i < m, s'.mem table i = 0#64 ∨ s'.mem table i = s.mem table i ∧
    ∀ g, decode d (s.mem table i) ≠ .link g

/-- What is done to one slot: the tree below it goes, and the entry with it. -/
def Slot (body : Machine → ℕ → Machine) (sub : Word → Machine → Machine) (d : ℕ) (table : Word) :
    Prop :=
  ∀ (s : Machine) i,
    (∀ g, decode d (s.mem table i) = .link g → body s i = (sub g s).write table i 0#64) ∧
      ((∀ g, decode d (s.mem table i) ≠ .link g) → body s i = s ∨ body s i = s.write table i 0#64)

/-- The step of the loop. -/
theorem Clears.step {body : Machine → ℕ → Machine} {sub : Word → Machine → Machine}
    (h : Clears s₀ s s' p d table m freed)
    (tree : Tree layout s₀.mem s₀.root) (hm : m < 512)
    (hroute : route layout s₀.mem s₀.root p d = some table) (hbody : Slot body sub d table)
    (htable : s.mem table = s₀.mem table) (hsame : ∀ g, Behind s₀ p d 512 g → s.mem g = s₀.mem g)
    (hsub : ∀ {g t}, route layout s₀.mem s₀.root (Function.update p d m) (d + 1) = some g →
      (∀ f, Under s₀ (Function.update p d m) (d + 1) f → t.mem f = s₀.mem f) →
      ∃ freed', Frees t (sub g t) freed' ∧ ∀ f, f ∈ freed' ↔
        Under s₀ (Function.update p d m) (d + 1) f) :
    ∃ freed', Clears s₀ s (body s' m) p d table (m + 1) freed' := by
  have hslot : s'.mem table m = s₀.mem table m := (h.rest m le_rfl).trans (congrFun htable m)
  have hupdate : route layout s₀.mem s₀.root (Function.update p d m) d = some table := by
    rw [route_of_agree (fun j hj => Function.update_of_ne hj.ne ..), hroute]
  by_cases hlink : ∃ g, decode d (s'.mem table m) = .link g
  · obtain ⟨g, hg⟩ := hlink
    rw [((hbody s' m).1 g hg)]
    have hnext : route layout s₀.mem s₀.root (Function.update p d m) (d + 1) = some g := by
      refine route_succ_eq_some.mpr ⟨table, hupdate, ?_⟩
      rw [Function.update_self, layout_decode, ← hslot, hg]
    have hunder : ∀ f, Under s₀ (Function.update p d m) (d + 1) f → f ∉ freed ∧ f ≠ table := by
      refine fun f hf => ⟨fun hmem => not_behind_of_under tree hf ((h.mem_iff f).mp hmem),
        fun heq => ?_⟩
      subst heq
      exact not_behind_self tree hroute ((behind_succ hm).mpr (.inl hf))
    obtain ⟨freed', hfrees, hiff⟩ := hsub hnext fun f hf => by
      rw [h.others f (hunder f hf).1 (hunder f hf).2]
      obtain ⟨q, e, hle, hagree, hq, hf⟩ := hf
      exact hsame f ⟨q, e, hle, (agree_update.mp hagree).1, hq d, hq, hf⟩
    have htable' : table ∉ freed' := fun hmem => (hunder table ((hiff table).mp hmem)).2 rfl
    refine ⟨freed' ++ freed, ⟨hfrees.root_eq.trans h.root_eq, hfrees.frozen_eq.trans h.frozen_eq,
      hfrees.dropped_eq.trans h.dropped_eq, ?_, ?_, fun f => ?_, fun f hf hne => ?_, fun i hi => ?_,
        fun i hi => ?_⟩⟩
    · change (sub g s').free = _
      rw [hfrees.free_eq, h.free_eq, List.append_assoc]
    · refine List.nodup_append.mpr ⟨hfrees.nodup, h.nodup, fun f hf f' hf' heq => ?_⟩
      subst heq
      exact (hunder f ((hiff f).mp hf)).1 hf'
    · rw [List.mem_append, hiff, h.mem_iff, behind_succ hm]
    · rw [List.mem_append, not_or] at hf
      exact (store_of_ne hne).trans ((hfrees.others f hf.1).trans (h.others f hf.2 hne))
    · change store (sub g s').mem table m 0#64 table i = _
      rw [store_index_of_ne (by omega), hfrees.others table htable', h.rest i (by omega)]
    · change store (sub g s').mem table m 0#64 table i = _ ∨
        store (sub g s').mem table m 0#64 table i = _ ∧ _
      obtain hlt | rfl := Nat.lt_succ_iff_lt_or_eq.mp hi
      · rw [store_index_of_ne hlt.ne, hfrees.others table htable']
        exact h.cleared i hlt
      · exact .inl store_self
  · rw [not_exists] at hlink
    have hnone : ∀ f, ¬Under s₀ (Function.update p d m) (d + 1) f := by
      rintro f ⟨q, e, hle, hagree, -, hf⟩
      obtain ⟨t, ht⟩ := route_of_le hf hle
      rw [route_of_agree hagree] at ht
      obtain ⟨table', htable', hdecode⟩ := route_succ_eq_some.mp ht
      rw [← Option.some.inj (hupdate.symm.trans htable'), Function.update_self, layout_decode,
        ← hslot] at hdecode
      exact hlink t hdecode
    have hiff : ∀ f, f ∈ freed ↔ Behind s₀ p d (m + 1) f := by
      refine fun f => (h.mem_iff f).trans ?_
      rw [behind_succ hm, or_iff_right (hnone f)]
    obtain heq | heq := (hbody s' m).2 hlink
    · rw [heq]
      refine ⟨freed, ⟨h.root_eq, h.frozen_eq, h.dropped_eq, h.free_eq, h.nodup, hiff, h.others,
        fun i hi => h.rest i (by omega), fun i hi => ?_⟩⟩
      obtain hlt | rfl := Nat.lt_succ_iff_lt_or_eq.mp hi
      · exact h.cleared i hlt
      · exact .inr ⟨h.rest i le_rfl, h.rest i le_rfl ▸ hlink⟩
    · rw [heq]
      refine ⟨freed, ⟨h.root_eq, h.frozen_eq, h.dropped_eq, h.free_eq, h.nodup, hiff,
        fun f hf hne => (store_of_ne hne).trans (h.others f hf hne), fun i hi => ?_,
          fun i hi => ?_⟩⟩
      · exact (store_index_of_ne (by omega)).trans (h.rest i (by omega))
      · change store s'.mem table m 0#64 table i = _ ∨ store s'.mem table m 0#64 table i = _ ∧ _
        obtain hlt | rfl := Nat.lt_succ_iff_lt_or_eq.mp hi
        · rw [store_index_of_ne hlt.ne]
          exact h.cleared i hlt
        · exact .inl store_self

/-- The whole loop. -/
theorem clears_foldl {body : Machine → ℕ → Machine} {sub : Word → Machine → Machine}
    (tree : Tree layout s₀.mem s₀.root) (hm : m ≤ 512)
    (hroute : route layout s₀.mem s₀.root p d = some table) (hbody : Slot body sub d table)
    (htable : s.mem table = s₀.mem table) (hsame : ∀ g, Behind s₀ p d 512 g → s.mem g = s₀.mem g)
    (hsub : ∀ {i g t}, i < m →
      route layout s₀.mem s₀.root (Function.update p d i) (d + 1) = some g →
      (∀ f, Under s₀ (Function.update p d i) (d + 1) f → t.mem f = s₀.mem f) →
      ∃ freed, Frees t (sub g t) freed ∧ ∀ f, f ∈ freed ↔
        Under s₀ (Function.update p d i) (d + 1) f) :
    ∃ freed, Clears s₀ s ((List.range m).foldl body s) p d table m freed := by
  induction m with
  | zero =>
    refine ⟨[], rfl, rfl, rfl, rfl, List.nodup_nil, fun g => iff_of_false (by simp) ?_,
      fun _ _ _ => rfl, fun _ _ => rfl,
      fun i hi => by omega⟩
    rintro ⟨q, e, -, -, hslot, -⟩
    omega
  | succ m ih =>
    obtain ⟨freed, hclears⟩ := ih (by omega) fun hi => hsub (by omega)
    rw [List.range_succ, List.foldl_append, List.foldl_cons, List.foldl_nil]
    exact hclears.step tree hm hroute hbody htable hsame
      fun hg ht => hsub (Nat.lt_succ_self m) hg ht

/-- **`free_table_tree`** gives back every table of the tree once, and touches no other frame. -/
theorem frees_freeTableTree {below : ℕ} (tree : Tree layout s₀.mem s₀.root) (hp : Bounded p)
    (hdepth : below + d = 4)
    (hd : 0 < d) (hroute : route layout s₀.mem s₀.root p d = some table)
    (hsame : ∀ g, Under s₀ p d g → s.mem g = s₀.mem g) :
    ∃ freed, Frees s (freeTableTree below table s) freed ∧ ∀ g, g ∈ freed ↔ Under s₀ p d g := by
  induction below generalizing s p d table with
  | zero =>
    -- four levels are all there are
    obtain ⟨t, ht, hlink⟩ := route_succ_eq_some.mp
      (show route layout s₀.mem s₀.root p (3 + 1) = some table by
      rwa [show 3 + 1 = d by omega])
    have := (decode_eq_link.mp hlink).2.1
    omega
  | succ below ih =>
    have hbody : Slot (freeEntry (freeTableTree below) below table) (freeTableTree below)
      d table := by
      refine fun t i => ⟨fun g hg => ?_, fun hnone => .inr ?_⟩
      · obtain ⟨hpresent, hlt, hhuge, rfl⟩ := decode_eq_link.mp hg
        rw [freeEntry, if_pos ⟨by omega, hpresent, by simpa using fun h => hhuge ⟨hd, h⟩⟩]
      · rw [freeEntry, if_neg]
        rintro ⟨hbelow, hpresent, hhuge⟩
        refine hnone _ (decode_eq_link.mpr ⟨hpresent, by omega, fun hleaf => ?_, rfl⟩)
        rw [hleaf.2] at hhuge
        contradiction
    obtain ⟨freed, hclears⟩ := clears_foldl (m := 512) tree le_rfl hroute hbody
      (hsame table ((under_iff hp hroute).mpr (.inl rfl)))
        (fun g hg => hsame g ((under_iff hp hroute).mpr (.inr hg)))
      fun hi hg ht => ih (hp.update hi) (by omega) (by omega) hg ht
    have hiff : ∀ g, g ∈ table :: freed ↔ Under s₀ p d g := fun g => by
      rw [List.mem_cons, hclears.mem_iff, under_iff hp hroute]
    rw [freeTableTree]
    generalize (List.range 512).foldl (freeEntry (freeTableTree below) below table) s =
      t at hclears ⊢
    refine ⟨table :: freed, ⟨hclears.root_eq, hclears.frozen_eq, hclears.dropped_eq, ?_, ?_,
      fun g hg => ?_⟩, hiff⟩
    · change table :: _ = table :: _
      rw [hclears.free_eq]
      rfl
    · exact List.nodup_cons.mpr
        ⟨fun hmem => not_behind_self tree hroute ((hclears.mem_iff table).mp hmem), hclears.nodup⟩
    · rw [List.mem_cons, not_or] at hg
      exact hclears.others g hg.2 hg.1

/-- What `drop_lower_half` comes to. -/
structure DropsLowerHalf (s s' : Machine) (freed : List Word) : Prop where
  root_eq : s'.root = s.root
  frozen_eq : s'.frozen = s.frozen
  dropped : s'.lowerHalfDropped = true
  free_eq : s'.free = freed ++ s.free
  nodup : freed.Nodup
  mem_iff : ∀ g, g ∈ freed ↔ Behind s (fun _ => 0) 0 kernelPml4First g
  others : ∀ g ∉ freed, g ≠ s.root → s'.mem g = s.mem g
  upper : ∀ i, kernelPml4First ≤ i → s'.mem s.root i = s.mem s.root i
  lower : ∀ i < kernelPml4First, s'.mem s.root i = 0#64 ∨
    s'.mem s.root i = s.mem s.root i ∧ has (s.mem s.root i) present = false

/-- At the root, an entry leads to a table if it is present. -/
theorem not_present_of_not_link {entry : Word} (h : ∀ g, decode 0 entry ≠ .link g) :
    has entry present = false := by
  by_contra hpresent
  exact h _ (link_of_present (by decide) (by simp) (by simpa using hpresent))

theorem Machine.Inv.dropsLowerHalf (h : Inv s) :
    ∃ freed, DropsLowerHalf s s.dropLowerHalf freed := by
  have hzero : Bounded fun _ => 0 := fun _ => show 0 < 512 by decide
  have hbody : Slot (dropEntry s.root) (freeTableTree 3) 0 s.root := by
    refine fun t i => ⟨fun g hg => ?_, fun hnone => .inl ?_⟩
    · obtain ⟨hpresent, -, -, rfl⟩ := decode_eq_link.mp hg
      rw [dropEntry, if_pos hpresent]
    · rw [dropEntry, not_present_of_not_link hnone, if_neg Bool.false_ne_true]
  obtain ⟨freed, hclears⟩ :=
    clears_foldl (s := s) (p := fun _ => 0) (m := kernelPml4First) h.tree (by decide)
    rfl hbody rfl (fun _ _ => rfl)
      fun hi hg ht => frees_freeTableTree h.tree (hzero.update (hi.trans (by decide)))
    (by decide) (by decide) hg ht
  refine ⟨freed, ⟨hclears.root_eq, hclears.frozen_eq, rfl, hclears.free_eq, hclears.nodup,
    hclears.mem_iff, hclears.others,
    hclears.rest, fun i hi => (hclears.cleared i hi).imp_right
      fun hkept => ⟨hkept.1, not_present_of_not_link hkept.2⟩⟩⟩

namespace DropsLowerHalf

/-- Frames of the lower half are no longer used on the other paths. -/
theorem not_mem (h : DropsLowerHalf s s' freed) (tree : Tree layout s.mem s.root)
    (hq : route layout s.mem s.root q d = some f) (hupper : 0 < d → kernelPml4First ≤ q 0) :
    f ∉ freed := by
  intro hmem
  obtain ⟨p, e, hlt, -, hslot, -, hp⟩ := (h.mem_iff f).mp hmem
  obtain ⟨rfl, hagree⟩ := tree.apart hp hq
  rw [hagree 0 hlt] at hslot
  exact absurd (hupper hlt) (not_le.mpr hslot)

/-- Which entries are left in the lower half of the root. -/
theorem lower_absent (h : DropsLowerHalf s s' freed) {i : ℕ} (hi : i < kernelPml4First) :
    has (s'.mem s.root i) present = false := by
  obtain heq | ⟨heq, hnone⟩ := h.lower i hi
  · rw [heq]
    decide
  · rwa [heq]

/-- The paths that are left are those of the kernel half. -/
theorem route_eq_some (h : DropsLowerHalf s s' freed) (tree : Tree layout s.mem s.root) :
    route layout s'.mem s'.root q d = some f ↔
      (0 < d → kernelPml4First ≤ q 0) ∧ route layout s.mem s.root q d = some f := by
  induction d generalizing f with
  | zero => rw [h.root_eq]; simp [route]
  | succ d ih =>
    rw [route_succ_eq_some, route_succ_eq_some]
    constructor
    · rintro ⟨table, htable, hlink⟩
      obtain ⟨hupper, htable⟩ := ih.mp htable
      obtain rfl | hpos := Nat.eq_zero_or_pos d
      · obtain rfl := Option.some.inj htable
        by_cases hi : kernelPml4First ≤ q 0
        · rw [h.upper _ hi] at hlink
          exact ⟨fun _ => hi, _, rfl, hlink⟩
        · rw [layout_decode, decode_of_not_present (h.lower_absent (not_le.mp hi))] at hlink
          contradiction
      · rw [h.others table (h.not_mem tree htable hupper) fun heq => ?_] at hlink
        · exact ⟨fun _ => hupper hpos, table, htable, hlink⟩
        · subst heq
          exact hpos.ne (tree.apart (p := q) (d := 0) rfl htable).1
    · rintro ⟨hupper, table, htable, hlink⟩
      refine ⟨table, ih.mpr ⟨fun _ => hupper d.succ_pos, htable⟩, ?_⟩
      obtain rfl | hpos := Nat.eq_zero_or_pos d
      · obtain rfl := Option.some.inj htable
        rwa [h.upper _ (hupper Nat.one_pos)]
      · rwa [h.others table (h.not_mem tree htable fun _ => hupper d.succ_pos) fun heq => by
          subst heq
          exact hpos.ne (tree.apart (p := q) (d := 0) rfl htable).1]

/-- What is read in the tables that are left. -/
theorem slot (h : DropsLowerHalf s s' freed) (tree : Tree layout s.mem s.root)
    (hq : route layout s'.mem s'.root q d = some f) :
    s'.mem f (q d) = s.mem f (q d) ∨ d = 0 ∧ s'.mem f (q d) = 0#64 := by
  obtain ⟨hupper, hroute⟩ := (h.route_eq_some tree).mp hq
  obtain rfl | hpos := Nat.eq_zero_or_pos d
  · obtain rfl := Option.some.inj hroute
    by_cases hi : kernelPml4First ≤ q 0
    · exact .inl (h.upper _ hi)
    · exact (h.lower _ (not_le.mp hi)).symm.imp (fun hkept => hkept.1) fun heq => ⟨rfl, heq⟩
  · rw [h.others f (h.not_mem tree hroute hupper) fun heq => ?_]
    · exact .inl rfl
    · subst heq
      exact hpos.ne (tree.apart (p := q) (d := 0) rfl hroute).1

theorem reached (h : DropsLowerHalf s s' freed) (tree : Tree layout s.mem s.root)
    (hf : Reached layout s'.mem s'.root f) : Reached layout s.mem s.root f ∧ f ∉ freed := by
  obtain ⟨q, d, hq⟩ := hf
  obtain ⟨hupper, hroute⟩ := (h.route_eq_some tree).mp hq
  exact ⟨⟨q, d, hroute⟩, h.not_mem tree hroute hupper⟩

/-- The frames that are freed were tables. -/
theorem was_reached (h : DropsLowerHalf s s' freed) (hf : f ∈ freed) :
    Reached layout s.mem s.root f ∧ f &&& physMask4K = f := by
  obtain ⟨q, d, hlt, -, -, -, hq⟩ := (h.mem_iff f).mp hf
  refine ⟨⟨q, d, hq⟩, ?_⟩
  obtain ⟨d, rfl⟩ := Nat.exists_eq_add_of_lt hlt
  rw [Nat.zero_add] at hq
  obtain ⟨table, -, hlink⟩ := route_succ_eq_some.mp hq
  rw [← (decode_eq_link.mp hlink).2.2.2, BitVec.and_assoc, BitVec.and_self]

theorem inv (h : DropsLowerHalf s s' freed) (hinv : Inv s) : Inv s' := by
  refine ⟨⟨fun hp hq => ?_⟩, fun {p d f g} hp hlink => ?_, fun {p d f} hp hd hnone => ?_, ?_,
    fun f hf => ?_⟩
  · exact hinv.tree.apart ((h.route_eq_some hinv.tree).mp hp).2
      ((h.route_eq_some hinv.tree).mp hq).2
  · obtain heq | ⟨-, heq⟩ := h.slot hinv.tree hp
    · rw [heq] at hlink ⊢
      exact hinv.link ((h.route_eq_some hinv.tree).mp hp).2 hlink
    · rw [heq, decode_zero] at hlink
      contradiction
  · obtain heq | ⟨-, heq⟩ := h.slot hinv.tree hp
    · rw [heq] at hnone ⊢
      exact hinv.blank ((h.route_eq_some hinv.tree).mp hp).2 hd hnone
    · rw [heq]
      decide
  · rw [h.free_eq]
    refine List.nodup_append.mpr ⟨h.nodup, hinv.nodup, fun f hf g hg heq => ?_⟩
    subst heq
    exact (hinv.fresh f hg).2 (h.was_reached hf).1
  · rw [h.free_eq, List.mem_append] at hf
    obtain hf | hf := hf
    · exact ⟨(h.was_reached hf).2, fun hreached => (h.reached hinv.tree hreached).2 hf⟩
    · exact ⟨(hinv.fresh f hf).1,
        fun hreached => (hinv.fresh f hf).2 (h.reached hinv.tree hreached).1⟩

/-- The kernel half maps what it mapped, and the lower half nothing. -/
theorem maps_iff (h : DropsLowerHalf s s' freed) (hinv : Inv s) {v : Page} :
    Maps layout s'.mem s'.root q v ↔ kernelPml4First ≤ q 0 ∧ Maps layout s.mem s.root q v := by
  constructor
  · rintro ⟨d, f, value, hq, hleaf, hv⟩
    obtain ⟨hupper, hroute⟩ := (h.route_eq_some hinv.tree).mp hq
    have hpos : 0 < d := by
      refine Nat.pos_of_ne_zero fun heq => ?_
      subst heq
      rw [layout_decode] at hleaf
      unfold decode at hleaf
      split_ifs at hleaf with h1 h2 h3
      · exact absurd h2 (by decide)
      all_goals exact lt_irrefl _ h3.1
    obtain heq | ⟨rfl, -⟩ := h.slot hinv.tree hq
    · exact ⟨hupper hpos, d, f, value, hroute, by rwa [heq] at hleaf, hv⟩
    · exact absurd hpos (lt_irrefl _)
  · rintro ⟨hupper, d, f, value, hq, hleaf, hv⟩
    have hroute := (h.route_eq_some hinv.tree).mpr ⟨fun _ => hupper, hq⟩
    refine ⟨d, f, value, hroute, ?_, hv⟩
    obtain heq | ⟨rfl, heq⟩ := h.slot hinv.tree hroute
    · rwa [heq]
    · obtain rfl := Option.some.inj hq
      rwa [h.upper _ hupper]

/-- Each table that only the lower half used is given back, and no other frame. -/
theorem mem_freed_iff (h : DropsLowerHalf s s' freed) (hinv : Inv s) :
    f ∈ freed ↔ (∃ q d, Bounded q ∧ route layout s.mem s.root q d = some f) ∧
      ¬Reached layout s'.mem s'.root f := by
  constructor
  · intro hf
    obtain ⟨q, d, -, -, -, hq, hroute⟩ := (h.mem_iff f).mp hf
    exact ⟨⟨q, d, hq, hroute⟩, fun hreached => (h.reached hinv.tree hreached).2 hf⟩
  · rintro ⟨⟨q, d, hq, hroute⟩, hnot⟩
    by_cases hlower : 0 < d ∧ q 0 < kernelPml4First
    · exact (h.mem_iff f).mpr ⟨q, d, hlower.1,
        fun i hi => absurd hi (Nat.not_lt_zero i), hlower.2, hq, hroute⟩
    · rw [not_and, not_lt] at hlower
      exact absurd ⟨q, d, (h.route_eq_some hinv.tree).mpr ⟨hlower, hroute⟩⟩ hnot

end DropsLowerHalf

end SaeOS.KernelTables
