import Mathlib.Data.List.Infix
import SaeOS.Mm.KernelTables

/-!
# Mapping a kernel page

`Inv` says that the kernel tables form a tree, that every link in it grants everything but user
access, and that the frames the allocator will hand out are not tables. Mapping a page, whatever
comes of it, keeps what every other page maps: a table that is created maps nothing, and the pieces
of a leaf that is split map what it mapped.
-/

namespace SaeOS.KernelTables

open TableTree

/-- Indices of a table. -/
def Bounded (p : ℕ → ℕ) : Prop :=
  ∀ d, p d < 512

theorem bounded_index (virtualAddress : ℕ) : Bounded (index virtualAddress) :=
  fun _ => Nat.mod_lt _ (by decide)

namespace Machine

/-- What holds of the kernel tables between two edits. -/
structure Inv (s : Machine) : Prop where
  tree : Tree layout s.mem s.root
  link : ∀ {p d f g}, route layout s.mem s.root p d = some f → decode d (s.mem f (p d)) = .link g →
    s.mem f (p d) = g ||| present ||| writable
  blank : ∀ {p d f}, route layout s.mem s.root p d = some f → d < 3 →
    has (s.mem f (p d)) present = false →
    has (s.mem f (p d)) huge = false
  nodup : s.free.Nodup
  fresh : ∀ f ∈ s.free, f &&& physMask4K = f ∧ ¬Reached layout s.mem s.root f

/-- What every edit keeps: it unlinks no table, takes frames in order, writes to tables only, and
leaves the entries of the root that are there. -/
structure Keeps (s s' : Machine) : Prop where
  root_eq : s'.root = s.root
  frozen_eq : s'.frozen = s.frozen
  dropped_eq : s'.lowerHalfDropped = s.lowerHalfDropped
  suffix : s'.free <:+ s.free
  reached : ∀ {f}, Reached layout s.mem s.root f → Reached layout s'.mem s'.root f
  origin : ∀ {f}, Reached layout s'.mem s'.root f → Reached layout s.mem s.root f ∨ f ∈ s.free
  written : ∀ {f}, s'.mem f ≠ s.mem f → Reached layout s'.mem s'.root f
  top : ∀ {i}, has (s.mem s.root i) present = true → s'.mem s'.root i = s.mem s.root i

theorem Keeps.refl (s : Machine) : Keeps s s :=
  ⟨rfl, rfl, rfl, List.suffix_rfl, id, .inl, fun h => absurd rfl h, fun _ => rfl⟩

theorem Keeps.trans {s s' s'' : Machine} (h : Keeps s s') (h' : Keeps s' s'') : Keeps s s'' where
  root_eq := h'.root_eq.trans h.root_eq
  frozen_eq := h'.frozen_eq.trans h.frozen_eq
  dropped_eq := h'.dropped_eq.trans h.dropped_eq
  suffix := h'.suffix.trans h.suffix
  reached := fun hf => h'.reached (h.reached hf)
  origin := fun hf => (h'.origin hf).elim h.origin fun hf => .inr (h.suffix.subset hf)
  written := fun {f} hf => by
    by_cases hsame : s'.mem f = s.mem f
    · exact h'.written (hsame ▸ hf)
    · exact h'.reached (h.written hsame)
  top := fun hi => (h'.top (by rwa [h.top hi])).trans (h.top hi)

/-- All pages map what they mapped. -/
structure Same (s s' : Machine) : Prop where
  maps_iff : ∀ {p v}, Bounded p → (Maps layout s'.mem s'.root p v ↔ Maps layout s.mem s.root p v)

theorem Same.refl (s : Machine) : Same s s :=
  ⟨fun _ => Iff.rfl⟩

theorem Same.trans {s s' s'' : Machine} (h : Same s s') (h' : Same s' s'') : Same s s'' :=
  ⟨fun hp => (h'.maps_iff hp).trans (h.maps_iff hp)⟩

/-- A path ends at a leaf of depth `k`. -/
def LeafAt (s : Machine) (k : ℕ) (p : ℕ → ℕ) : Prop :=
  ∃ table value, route layout s.mem s.root p k = some table ∧
    decode k (s.mem table (p k)) = .leaf value

end Machine

open Machine

variable {s s' : Machine} {p q : ℕ → ℕ} {d k i : ℕ} {table frame entry : Word} {v : Page}

/-! ## Entries -/

theorem has_huge_of_frame (h : frame &&& physMask4K = frame) : has frame huge = false :=
  has_of_and_eq h (by decide)

/-- An entry that leads to a table. -/
theorem decode_link_entry (h : frame &&& physMask4K = frame) (hk : k < 3) :
    decode k (frame ||| present ||| writable) = .link frame := by
  have hpresent : has (frame ||| present ||| writable) present = true := by
    rw [has_or, has_or, show has present present = true by decide, Bool.or_true, Bool.true_or]
  have hhuge : has (frame ||| present ||| writable) huge = false := by
    rw [has_or, has_or, has_huge_of_frame h]
    decide
  refine decode_eq_link.mpr ⟨hpresent, hk, by simp [hhuge], ?_⟩
  rw [BitVec.and_or_distrib_right, BitVec.and_or_distrib_right, h,
    show present &&& physMask4K = 0#64 by decide,
    show writable &&& physMask4K = 0#64 by decide, BitVec.or_zero, BitVec.or_zero]

theorem decode_zero (d : ℕ) : decode d 0#64 = .absent :=
  decode_of_not_present (by decide)

/-- Above the page table, a leaf is an entry with the bit for it. -/
theorem huge_of_leaf {value : (ℕ → ℕ) → Page} (hk : k < 3) (h : decode k entry = .leaf value) :
    has entry huge = true := by
  unfold decode at h
  split_ifs at h with h1 h2 h3
  · omega
  all_goals exact h3.2

/-- The page that an entry of a page table maps. -/
def PageFlags.page (flags : PageFlags) (physical : ℕ) : Page :=
  ⟨physical, flags.bits &&& leafAttributes, has flags.bits pat4K⟩

theorem decode_page (flags : PageFlags) {physical : ℕ} (hdvd : physical % pageSize = 0)
    (hlt : physical < 2 ^ 52) :
    decode 3 (BitVec.ofNat 64 physical ||| flags.bits) = .leaf fun _ => flags.page physical := by
  have hmask : BitVec.ofNat 64 physical &&& physMask4K = BitVec.ofNat 64 physical :=
    ofNat_and_mask physMask4K_bits (Nat.dvd_of_mod_eq_zero hdvd) hlt
  have hpresent : has (BitVec.ofNat 64 physical ||| flags.bits) present = true := by
    rw [has_or, flags.present_eq, Bool.or_true]
  have hattributes : (BitVec.ofNat 64 physical ||| flags.bits) &&& leafAttributes =
    flags.bits &&& leafAttributes := by
    rw [BitVec.and_or_distrib_right, and_eq_zero_of hmask (by decide), BitVec.zero_or]
  have haddress : ((BitVec.ofNat 64 physical ||| flags.bits) &&& physMask4K).toNat = physical := by
    rw [BitVec.and_or_distrib_right, hmask, flags.address_eq, BitVec.or_zero, BitVec.toNat_ofNat,
      Nat.mod_eq_of_lt (by omega)]
  have hpat : has (BitVec.ofNat 64 physical ||| flags.bits) pat4K = has flags.bits pat4K := by
    rw [has_or, has_of_and_eq hmask (by decide), Bool.false_or]
  unfold decode
  rw [if_neg (by simp [hpresent]), if_pos le_rfl]
  simp only [leafPage, hattributes, haddress, hpat, Nat.add_zero, PageFlags.page]

namespace Machine

/-! ## Single stores -/

/-- An entry that may be stored at depth `k` of a path. -/
structure Storable (s : Machine) (k : ℕ) (entry : Word) : Prop where
  fresh : Fresh layout s.mem s.root k entry
  link : ∀ g, decode k entry = .link g → entry = g ||| present ||| writable ∧ g ∉ s.free ∧
    (k + 1 < 3 → ∀ j, has (s.mem g j) present = false → has (s.mem g j) huge = false)
  blank : k < 3 → has entry present = false → has entry huge = false

theorem Inv.write (h : Inv s) (hp : route layout s.mem s.root p k = some table)
    (hs : Storable s k entry) :
    Inv (s.write table (p k) entry) := by
  refine ⟨h.tree.store hp hs.fresh, fun {q d f g} hq hlink => ?_,
    fun {q d f} hq hd hnone => ?_, h.nodup,
    fun f hf => ⟨(h.fresh f hf).1, fun hreached => ?_⟩⟩
  · change store s.mem table (p k) entry f (q d) = _
    change decode d (store s.mem table (p k) entry f (q d)) = _ at hlink
    obtain ⟨rfl, heq⟩ | ⟨hold, heq⟩ | ⟨rfl, hentry, heq⟩ := h.tree.slot_store_cases hp hs.fresh hq
    · rw [heq] at hlink ⊢
      exact (hs.link g hlink).1
    · rw [heq] at hlink ⊢
      exact h.link hold hlink
    · rw [heq] at hlink
      exact absurd hlink ((hs.fresh f hentry).2 _ g)
  · change has (store s.mem table (p k) entry f (q d)) huge = _
    change has (store s.mem table (p k) entry f (q d)) present = _ at hnone
    obtain ⟨rfl, heq⟩ | ⟨hold, heq⟩ | ⟨rfl, hentry, heq⟩ := h.tree.slot_store_cases hp hs.fresh hq
    · rw [heq] at hnone ⊢
      exact hs.blank hd hnone
    · rw [heq] at hnone ⊢
      exact h.blank hold hd hnone
    · rw [heq] at hnone ⊢
      exact (hs.link f hentry).2.2 hd _ hnone
  · obtain hold | hlink := h.tree.reached_store hp hs.fresh hreached
    · exact (h.fresh f hf).2 hold
    · exact (hs.link f hlink).2.1 hf

/-- A store over an entry that was no link unlinks nothing. -/
theorem Inv.reached_write (h : Inv s) (hp : route layout s.mem s.root p k = some table)
    (hold : ∀ g, decode k (s.mem table (p k)) ≠ .link g) {f : Word}
    (hf : Reached layout s.mem s.root f) :
    Reached layout (s.write table (p k) entry).mem s.root f := by
  obtain ⟨q, d, hq⟩ := hf
  refine ⟨q, d, ?_⟩
  by_cases hoff : d ≤ k ∨ ¬Agree (k + 1) q p
  · exact (h.tree.route_store_off hp hoff).trans hq
  · rw [not_or, not_le, not_not] at hoff
    obtain ⟨g, hg⟩ := route_of_le hq (Nat.succ_le_iff.mpr hoff.1)
    rw [Nat.succ_eq_add_one, route_of_agree hoff.2] at hg
    obtain ⟨table', htable, hlink⟩ := route_succ_eq_some.mp hg
    obtain rfl := Option.some.inj (hp.symm.trans htable)
    exact absurd hlink (hold g)

/-- An entry of the root is only stored where there was none. -/
theorem Inv.top_write (h : Inv s) (hp : route layout s.mem s.root p k = some table)
    (hold : ∀ g, decode k (s.mem table (p k)) ≠ .link g)
    (hi : has (s.mem s.root i) present = true) :
    store s.mem table (p k) entry s.root i = s.mem s.root i := by
  by_cases hroot : s.root = table
  · subst hroot
    obtain ⟨rfl, -⟩ := h.tree.apart hp (show route layout s.mem s.root p 0 = some s.root from rfl)
    refine store_index_of_ne fun heq => ?_
    subst heq
    exact hold _ (decode_eq_link.mpr ⟨hi, by decide, by simp, rfl⟩)
  · rw [store_of_ne hroot]

theorem Inv.keeps_write (h : Inv s) (hp : route layout s.mem s.root p k = some table)
    (hold : ∀ g, decode k (s.mem table (p k)) ≠ .link g) (hnew : ∀ g, decode k entry ≠ .link g) :
    Keeps s (s.write table (p k) entry) where
  root_eq := rfl
  frozen_eq := rfl
  dropped_eq := rfl
  suffix := List.suffix_rfl
  reached := fun hf => h.reached_write hp hold hf
  origin := fun {f} hf => .inl
    ((h.tree.reached_store hp (fun g hg => absurd hg (hnew g)) hf).resolve_right (hnew f))
  written := fun {f} hf => by
    by_cases hft : f = table
    · subst hft
      exact h.reached_write hp hold ⟨p, k, hp⟩
    · exact absurd (store_of_ne hft) hf
  top := h.top_write hp hold

/-- Where the leaves are after a store. -/
theorem leafAt_store {mem : Word → ℕ → Word} {root : Word} {d : ℕ} (tree : Tree layout mem root)
    (hp : route layout mem root p k = some table) (hfresh : Fresh layout mem root k entry)
    (hleaf : ∃ f value, route layout (store mem table (p k) entry) root q d = some f ∧
      decode d (store mem table (p k) entry f (q d)) = .leaf value) :
    (∃ f value, route layout mem root q d = some f ∧ decode d (mem f (q d)) = .leaf value) ∨
      (d = k ∧ Agree (k + 1) q p ∧ ∃ value, decode k entry = .leaf value) ∨
      d = k + 1 ∧ ∃ f value, decode k entry = .link f ∧ decode d (mem f (q d)) = .leaf value := by
  obtain ⟨f, value, hq, hvalue⟩ := hleaf
  by_cases hself : d = k ∧ Agree (k + 1) q p
  · obtain ⟨rfl, hon⟩ := hself
    rw [tree.route_store_off hp (.inl le_rfl), route_of_agree (hon.mono d.le_succ)] at hq
    obtain rfl := Option.some.inj (hp.symm.trans hq)
    rw [hon d d.lt_succ_self, store_self] at hvalue
    exact .inr (.inl ⟨rfl, hon, value, hvalue⟩)
  · obtain ⟨hold, hoff⟩ | ⟨-, rfl, hlink⟩ := tree.route_store_cases hp hfresh hq
    · refine .inl ⟨f, value, hold, ?_⟩
      rw [tree.store_of_route hp hold] at hvalue
      · exact hvalue
      · by_cases hdk : d = k
        · exact .inr fun hon => hself ⟨hdk, hon⟩
        · exact hoff.imp_left fun hle => lt_of_le_of_ne hle hdk
    · have hne : f ≠ table := fun heq => (hfresh f hlink).1 ⟨p, k, heq ▸ hp⟩
      rw [store_of_ne hne] at hvalue
      exact .inr (.inr ⟨rfl, f, value, hlink, hvalue⟩)

/-! ## New tables -/

section LinkTable

variable {free : List Word} {entries : ℕ → Word}

/-- The frame that is filled is no table yet. -/
theorem Inv.filled_eq (h : Inv s) (hfree : s.free = frame :: free) {f : Word}
    (hf : Reached layout s.mem s.root f) : Function.update s.mem frame entries f = s.mem f :=
  Function.update_of_ne (fun heq : f = frame =>
    (h.fresh frame (hfree ▸ List.mem_cons_self)).2 (heq ▸ hf)) ..

theorem Inv.filled (h : Inv s) (hfree : s.free = frame :: free) :
    Inv ({ s with free }.fill frame entries) := by
  have hframe : ∀ f, Reached layout s.mem s.root f →
    Function.update s.mem frame entries f = s.mem f :=
    fun f => h.filled_eq hfree
  have hnodup := (List.nodup_cons.mp (hfree ▸ h.nodup)).2
  refine ⟨tree_congr hframe h.tree, fun {q d f g} hq hlink => ?_,
    fun {q d f} hq hd hnone => ?_, hnodup,
    fun f hf => ?_⟩
  · have hq : route layout s.mem s.root q d = some f := (route_congr hframe).symm.trans hq
    have heq := hframe f ⟨q, d, hq⟩
    change Function.update s.mem frame entries f (q d) = _
    change decode d (Function.update s.mem frame entries f (q d)) = _ at hlink
    rw [heq] at hlink ⊢
    exact h.link hq hlink
  · have hq : route layout s.mem s.root q d = some f := (route_congr hframe).symm.trans hq
    have heq := hframe f ⟨q, d, hq⟩
    change has (Function.update s.mem frame entries f (q d)) huge = _
    change has (Function.update s.mem frame entries f (q d)) present = _ at hnone
    rw [heq] at hnone ⊢
    exact h.blank hq hd hnone
  · obtain ⟨hf, hunreached⟩ := h.fresh f (hfree ▸ List.mem_cons_of_mem _ hf)
    exact ⟨hf, fun hreached => hunreached ((reached_congr hframe).mp hreached)⟩

/-- The frame that was filled may be linked. -/
theorem Inv.storable_link (h : Inv s) (hk : k < 3) (hfree : s.free = frame :: free)
    (hends : ∀ j g, decode (k + 1) (entries j) ≠ .link g)
    (hblank : ∀ j, has (entries j) present = false → has (entries j) huge = false) :
    Storable ({ s with free }.fill frame entries) k (frame ||| present ||| writable) := by
  obtain ⟨hmask, hnew⟩ := h.fresh frame (hfree ▸ List.mem_cons_self)
  have hlink := decode_link_entry hmask hk
  have hself : Function.update s.mem frame entries frame = entries := Function.update_self ..
  refine ⟨fun g hg => ?_, fun g hg => ?_, fun _ hnone => ?_⟩
  · obtain rfl := Node.link.inj (hlink.symm.trans hg)
    refine ⟨fun hreached => hnew ((reached_congr fun f => h.filled_eq hfree).mp hreached),
      fun j g => ?_⟩
    change decode (k + 1) (Function.update s.mem frame entries frame j) ≠ _
    rw [hself]
    exact hends j g
  · obtain rfl := Node.link.inj (hlink.symm.trans hg)
    refine ⟨rfl, (List.nodup_cons.mp (hfree ▸ h.nodup)).1, fun _ j => ?_⟩
    change has (Function.update s.mem frame entries frame j) present = false → _
    change _ → has (Function.update s.mem frame entries frame j) huge = false
    rw [hself]
    exact hblank j
  · rw [decode_of_not_present hnone] at hlink
    contradiction

/-- Linking the frame unlinks nothing, and writes to it and to the table above. -/
theorem Inv.keeps_linkTable (h : Inv s) (hp : route layout s.mem s.root p k = some table)
    (hk : k < 3)
    (hfree : s.free = frame :: free)
    (hs : Storable ({ s with free }.fill frame entries) k (frame ||| present ||| writable))
    (hold : ∀ g, decode k (s.mem table (p k)) ≠ .link g) :
    Keeps s (({ s with free }.fill frame entries).write table (p k)
      (frame ||| present ||| writable)) := by
  have hfilled : Inv ({ s with free }.fill frame entries) := h.filled hfree
  have hframe : ∀ f, Reached layout s.mem s.root f →
    Function.update s.mem frame entries f = s.mem f :=
    fun f => h.filled_eq hfree
  have hp' : route layout (Function.update s.mem frame entries) s.root p k = some table :=
    (route_congr hframe).trans hp
  have hlink := decode_link_entry (h.fresh frame (hfree ▸ List.mem_cons_self)).1 hk
  have hslot : ∀ g, decode k (({ s with free }.fill frame entries).mem table (p k)) ≠ .link g := by
    intro g
    change decode k (Function.update s.mem frame entries table (p k)) ≠ _
    rw [hframe table ⟨p, k, hp⟩]
    exact hold g
  have hkept : ∀ {f}, Reached layout s.mem s.root f →
      Reached layout (store (Function.update s.mem frame entries) table (p k)
        (frame ||| present ||| writable)) s.root f :=
    fun hf => hfilled.reached_write hp' hslot ((reached_congr hframe).mpr hf)
  have htree : Tree layout (Function.update s.mem frame entries) s.root := hfilled.tree
  refine ⟨rfl, rfl, rfl, hfree ▸ List.suffix_cons .., hkept, fun {f} hf => ?_, fun {f} hf => ?_,
    fun {i} hi => ?_⟩
  · obtain hf | hf := htree.reached_store hp' hs.fresh hf
    · exact .inl ((reached_congr hframe).mp hf)
    · rw [hfree, Node.link.inj (hf.symm.trans hlink)]
      exact .inr List.mem_cons_self
  · by_cases hft : f = table
    · exact hkept (hft ▸ ⟨p, k, hp⟩)
    · by_cases hff : f = frame
      · rw [hff]
        refine ⟨p, k + 1, (htree.route_store_on hp' fun _ _ => rfl).trans ?_⟩
        rw [layout_decode, hlink, Node.link?]
      · exact absurd ((store_of_ne hft).trans (Function.update_of_ne hff ..)) hf
  · have hroot : Function.update s.mem frame entries s.root = s.mem s.root :=
      hframe s.root ⟨p, 0, rfl⟩
    refine (hfilled.top_write hp' hslot ?_).trans (congrFun hroot i)
    exact (congrArg (fun e => has e present) (congrFun hroot i)).trans hi

/-- A frame is taken, filled with entries that are no links, and linked. -/
theorem Inv.linkTable (h : Inv s) (hp : route layout s.mem s.root p k = some table) (hk : k < 3)
    {free : List Word}
    (hfree : s.free = frame :: free) (entries : ℕ → Word)
    (hends : ∀ j g, decode (k + 1) (entries j) ≠ .link g)
    (hblank : ∀ j, has (entries j) present = false → has (entries j) huge = false)
    (hold : ∀ g, decode k (s.mem table (p k)) ≠ .link g) {s' : Machine}
    (hs' : s' = ({ s with free }.fill frame entries).write table (p k)
      (frame ||| present ||| writable)) :
    Inv s' ∧ Keeps s s' ∧ route layout s'.mem s'.root p k = some table ∧
      s'.mem table (p k) = frame ||| present ||| writable ∧
      (∀ q v, ¬Agree (k + 1) q p →
        (Maps layout s'.mem s'.root q v ↔ Maps layout s.mem s.root q v)) ∧
      (∀ q v, Agree (k + 1) q p → (Maps layout s'.mem s'.root q v ↔
        ∃ value, decode (k + 1) (entries (q (k + 1))) = .leaf value ∧ value q = v)) ∧
      ∀ q, LeafAt s' 1 q → LeafAt s 1 q ∨ k = 0 ∧
        ∃ value, decode 1 (entries (q 1)) = .leaf value := by
  have hframe : ∀ f, Reached layout s.mem s.root f →
    Function.update s.mem frame entries f = s.mem f :=
    fun f => h.filled_eq hfree
  have hfilled : Inv ({ s with free }.fill frame entries) := h.filled hfree
  have hp' : route layout (Function.update s.mem frame entries) s.root p k = some table :=
    (route_congr hframe).trans hp
  have hlink := decode_link_entry (h.fresh frame (hfree ▸ List.mem_cons_self)).1 hk
  have hself : Function.update s.mem frame entries frame = entries := Function.update_self ..
  have hstorable := h.storable_link hk hfree hends hblank
  have htree : Tree layout (Function.update s.mem frame entries) s.root := hfilled.tree
  have hfresh : Fresh layout (Function.update s.mem frame entries) s.root k
    (frame ||| present ||| writable) :=
    hstorable.fresh
  subst hs'
  refine ⟨hfilled.write hp' hstorable, h.keeps_linkTable hp hk hfree hstorable hold,
    (htree.route_store_off hp' (.inl le_rfl)).trans hp', store_self, fun q v hoff => ?_,
      fun q v hon => ?_,
    fun q hleaf => ?_⟩
  · exact (htree.maps_store_of_not_agree hp' hoff).trans (maps_congr hframe)
  · refine (htree.maps_store_of_agree hp' hfresh hon).trans ?_
    simp only [layout_decode, hlink]
    constructor
    · rintro (⟨value, hvalue, -⟩ | ⟨f, value, hf, hvalue, hv⟩)
      · contradiction
      · obtain rfl := Node.link.inj hf
        rw [hself] at hvalue
        exact ⟨value, hvalue, hv⟩
    · rintro ⟨value, hvalue, hv⟩
      exact .inr ⟨frame, value, rfl, by rw [hself, hvalue], hv⟩
  · obtain ⟨f, value, hq, hvalue⟩ | ⟨-, -, value, hvalue⟩ | ⟨hk1, f, value, hf, hvalue⟩ :=
      leafAt_store htree hp' hfresh hleaf
    · have hq : route layout s.mem s.root q 1 = some f := (route_congr hframe).symm.trans hq
      rw [hframe f ⟨q, 1, hq⟩] at hvalue
      exact .inl ⟨f, value, hq, hvalue⟩
    · rw [hlink] at hvalue
      contradiction
    · obtain rfl := Node.link.inj (hlink.symm.trans hf)
      rw [hself] at hvalue
      exact .inr ⟨by omega, value, hvalue⟩

end LinkTable

/-- What a step on the way to a page leaves: the tables as they should be, and every page as it
was. -/
structure OnTheWay (s s' : Machine) : Prop where
  inv : Inv s'
  keeps : Keeps s s'
  same : Same s s'
  /-- No leaf of 1 GiB is new. -/
  giga : ∀ {q}, LeafAt s' 1 q → LeafAt s 1 q

theorem OnTheWay.refl (h : Inv s) : OnTheWay s s :=
  ⟨h, .refl s, .refl s, id⟩

theorem OnTheWay.trans {s'' : Machine} (h : OnTheWay s s') (h' : OnTheWay s' s'') :
    OnTheWay s s'' :=
  ⟨h'.inv, h.keeps.trans h'.keeps, h.same.trans h'.same, fun hq => h.giga (h'.giga hq)⟩

/-- The entry of a table is a link where there is an entry that is no leaf. -/
theorem link_of_present (hk : k < 3) (hleaf : ¬(0 < k ∧ has entry huge = true))
    (h : has entry present = true) :
    decode k entry = .link (entry &&& physMask4K) :=
  decode_eq_link.mpr ⟨h, hk, hleaf, rfl⟩

/-- `child` goes to the table of an entry, or creates it. -/
theorem Inv.child (h : Inv s) (hp : route layout s.mem s.root p k = some table) (hk : k < 3)
    (hleaf : ¬(0 < k ∧ has (s.mem table (p k)) huge = true)) :
    OnTheWay s (s.child table (p k)).2 ∧
      (∀ t, (s.child table (p k)).1 = some t →
        route layout (s.child table (p k)).2.mem (s.child table (p k)).2.root p (k + 1) = some t) ∧
      ((s.child table (p k)).1 = none → (s.child table (p k)).2.free = []) := by
  unfold Machine.child
  by_cases hpresent : has (s.mem table (p k)) present = true
  · rw [if_pos hpresent]
    refine ⟨.refl h, fun t ht => ?_, fun hnone => by contradiction⟩
    obtain rfl := Option.some.inj ht
    exact route_succ_eq_some.mpr ⟨table, hp, link_of_present hk hleaf hpresent⟩
  · rw [if_neg hpresent]
    rw [Bool.not_eq_true] at hpresent
    cases hfree : s.free with
    | nil =>
      simp only [allocTable, hfree]
      exact ⟨.refl h, fun t ht => by contradiction, fun _ => trivial⟩
    | cons frame free =>
      simp only [allocTable, hfree]
      have habsent : decode k (s.mem table (p k)) = .absent := decode_of_not_present hpresent
      obtain ⟨hinv, hkeeps, hroute, hentry, hoff, hon, hleafs⟩ :=
        h.linkTable hp hk hfree (fun _ => 0#64)
        (fun j g => by rw [decode_zero]; simp) (fun j _ => by decide)
          (fun g => by rw [habsent]; simp) rfl
      refine ⟨⟨hinv, hkeeps, ⟨fun {q v} hq => ?_⟩, fun {q} hq => ?_⟩, fun t ht => ?_,
        fun hnone => by contradiction⟩
      · by_cases hagree : Agree (k + 1) q p
        · rw [hon q v hagree, decode_zero]
          have hslot : route layout s.mem s.root q k = some table :=
            (route_of_agree (hagree.mono k.le_succ)).trans hp
          refine iff_of_false (by simp) (not_maps_of_absent hslot ?_)
          rw [hagree k k.lt_succ_self]
          exact habsent
        · exact hoff q v hagree
      · refine (hleafs q hq).resolve_right fun hzero => ?_
        rw [decode_zero] at hzero
        exact absurd hzero.2 (by simp)
      · obtain rfl := Option.some.inj ht
        have hmask := (h.fresh frame (hfree ▸ List.mem_cons_self)).1
        refine route_succ_eq_some.mpr ⟨table, hroute, ?_⟩
        rw [hentry, layout_decode, decode_link_entry hmask hk]
        have hlink := decode_eq_link.mp (decode_link_entry hmask hk)
        rw [hlink.2.2.2]

/-- The pieces that replace a huge leaf map what it mapped. -/
structure Splits (k : ℕ) (pieces : Word → ℕ → Word) : Prop where
  value : ∀ {entry p value}, has entry present = true → Bounded p → decode k entry = .leaf value →
    ∃ value', decode (k + 1) (pieces entry (p (k + 1))) = .leaf value' ∧ value' p = value p
  ends : ∀ entry j g, decode (k + 1) (pieces entry j) ≠ .link g
  blank : ∀ {entry j}, has entry present = true → has (pieces entry j) present = true

theorem splits_pieces1G : Splits 1 pieces1G where
  value := fun {entry p value} hpresent hp hleaf => by
    obtain ⟨value', hvalue', heq⟩ := decode_pieces1G hpresent (hp 2)
    refine ⟨value', hvalue', heq.trans ?_⟩
    have hhuge := huge_of_leaf (by decide) hleaf
    unfold decode at hleaf
    rw [if_neg (by simp [hpresent]), if_neg (by decide), if_pos ⟨Nat.one_pos, hhuge⟩] at hleaf
    rw [← Node.leaf.inj hleaf]
    exact (if_pos rfl).symm
  ends := fun _ j g => decode_pieces1G_ne_link j g
  blank := fun {entry j} hpresent => by
    rw [pieces1G, has_or, has_or, has_inherited_present, hpresent, Bool.or_true, Bool.true_or]

theorem splits_pieces2M : Splits 2 pieces2M where
  value := fun {entry p value} hpresent hp hleaf => by
    obtain ⟨value', hvalue', heq⟩ := decode_pieces2M hpresent (hp 3)
    refine ⟨value', hvalue', heq.trans ?_⟩
    have hhuge := huge_of_leaf (by decide) hleaf
    unfold decode at hleaf
    rw [if_neg (by simp [hpresent]), if_neg (by decide), if_pos ⟨Nat.two_pos, hhuge⟩] at hleaf
    rw [← Node.leaf.inj hleaf]
    exact (if_neg (by decide)).symm
  ends := fun _ j g hlink => absurd (decode_eq_link.mp hlink).2.1 (by decide)
  blank := fun {entry j} hpresent => by
    rw [pieces2M, has_or, has_inherited_present, hpresent, Bool.or_true]

/-- Splitting a huge leaf. -/
theorem Inv.splitLeaf {pieces : Word → ℕ → Word} (h : Inv s)
    (hp : route layout s.mem s.root p k = some table)
    (hk : k < 3) (h0 : 0 < k) (hpieces : Splits k pieces) :
    OnTheWay s (s.splitLeaf table (p k) pieces).2 ∧
      ((s.splitLeaf table (p k) pieces).1 = true →
        route layout (s.splitLeaf table (p k) pieces).2.mem (s.splitLeaf table (p k) pieces).2.root
          p k = some table ∧
          ¬has ((s.splitLeaf table (p k) pieces).2.mem table (p k)) huge = true) ∧
      ((s.splitLeaf table (p k) pieces).1 = false →
        (s.splitLeaf table (p k) pieces).2.free = []) := by
  unfold Machine.splitLeaf
  dsimp only
  by_cases hhuge : has (s.mem table (p k)) huge = true
  · rw [if_pos hhuge]
    have hpresent : has (s.mem table (p k)) present = true := by
      by_contra hnone
      rw [h.blank hp hk (by simpa using hnone)] at hhuge
      contradiction
    have hnolink : ∀ g, decode k (s.mem table (p k)) ≠ .link g := fun g hlink =>
      (decode_eq_link.mp hlink).2.2.1 ⟨h0, hhuge⟩
    obtain ⟨value, hleaf⟩ : ∃ value, decode k (s.mem table (p k)) = .leaf value := by
      cases hdecode : decode k (s.mem table (p k)) with
      | absent =>
        unfold decode at hdecode
        simp [hpresent, not_le.mpr hk, h0, hhuge] at hdecode
      | link g => exact absurd hdecode (hnolink g)
      | leaf value => exact ⟨value, rfl⟩
    cases hfree : s.free with
    | nil =>
      simp only [allocTable, hfree]
      exact ⟨.refl h, fun ht => by contradiction, fun _ => trivial⟩
    | cons frame free =>
      simp only [allocTable, hfree]
      have hfill : ({ s with free }.fill frame fun _ => 0#64).fill frame
        (pieces (s.mem table (p k))) =
          { s with free }.fill frame (pieces (s.mem table (p k))) := by
        simp only [fill, Function.update_idem]
      obtain ⟨hinv, hkeeps, hroute, hentry, hoff, hon, hleafs⟩ :=
        h.linkTable hp hk hfree (pieces (s.mem table (p k)))
        (hpieces.ends _) (fun j hnone => by rw [hpieces.blank hpresent] at hnone; contradiction)
          hnolink rfl
      rw [hfill]
      refine ⟨⟨hinv, hkeeps, ⟨fun {q v} hq => ?_⟩,
        fun {q} hq => (hleafs q hq).resolve_right fun hzero => by omega⟩,
        fun _ => ⟨hroute, ?_⟩, fun hfalse => by contradiction⟩
      · by_cases hagree : Agree (k + 1) q p
        · obtain ⟨value', hvalue', heq⟩ := hpieces.value hpresent hq hleaf
          have hslot : route layout s.mem s.root q k = some table :=
            (route_of_agree (hagree.mono k.le_succ)).trans hp
          have hold : decode k (s.mem table (q k)) = .leaf value := by rwa [hagree k k.lt_succ_self]
          rw [hon q v hagree, maps_of_leaf hslot hold]
          constructor
          · rintro ⟨value'', hvalue'', hv⟩
            rw [← heq, ← Node.leaf.inj (hvalue''.symm.trans hvalue'), hv]
          · exact fun hv => ⟨value', hvalue', heq.trans hv⟩
        · exact hoff q v hagree
      · rw [hentry]
        exact fun hhuge => (decode_eq_link.mp
          (decode_link_entry (h.fresh frame (hfree ▸ List.mem_cons_self)).1 hk)).2.2.1
          ⟨h0, hhuge⟩
  · rw [if_neg hhuge]
    exact ⟨.refl h, fun _ => ⟨hp, hhuge⟩, fun hfalse => by contradiction⟩

/-- A leaf on the way is split, and a missing table is created. -/
theorem Inv.below {pieces : Word → ℕ → Word} (h : Inv s)
    (hp : route layout s.mem s.root p k = some table)
    (hk : k < 3) (h0 : 0 < k) (hpieces : Splits k pieces) :
    OnTheWay s (s.below table (p k) pieces).2 ∧
      (∀ t, (s.below table (p k) pieces).1 = some t →
        route layout (s.below table (p k) pieces).2.mem (s.below table (p k) pieces).2.root p
          (k + 1) = some t) ∧
      ((s.below table (p k) pieces).1 = none → (s.below table (p k) pieces).2.free = []) := by
  obtain ⟨hway, htrue, hfalse⟩ := h.splitLeaf hp hk h0 hpieces
  unfold Machine.below
  cases hsplit : s.splitLeaf table (p k) pieces with
  | mk ok s₁ =>
    rw [hsplit] at hway htrue hfalse
    cases ok with
    | false => exact ⟨hway, fun t ht => by contradiction, fun _ => hfalse rfl⟩
    | true =>
      obtain ⟨hroute, hhuge⟩ := htrue rfl
      obtain ⟨hchild, hsome, hnone⟩ := hway.inv.child hroute hk fun hnot => hhuge hnot.2
      exact ⟨hway.trans hchild, hsome, hnone⟩

/-! ## Pages -/

/-- What mapping a page comes to. -/
structure MapsPage (s s' : Machine) (virtualAddress : ℕ) (page : Page) (mode : Overwrite)
    (r : Except MapError Unit) : Prop where
  inv : Inv s'
  keeps : Keeps s s'
  giga : ∀ {q}, LeafAt s' 1 q → LeafAt s 1 q
  others : ∀ {q v}, Bounded q → ¬Agree 4 q (index virtualAddress) →
    (Maps layout s'.mem s'.root q v ↔ Maps layout s.mem s.root q v)
  mapped : r = .ok () → ∀ {q}, Agree 4 q (index virtualAddress) → Maps layout s'.mem s'.root q page
  failed : ∀ {e}, r = .error e → Same s s'
  accepted : r = .ok () → mode = .reject →
    ∀ {v}, Maps layout s.mem s.root (index virtualAddress) v → v = page
  exhausted : r = .error .outOfFrames → s'.free = []
  /-- A page that is mapped has an entry in a page table. -/
  small : r = .ok () → ∃ table, route layout s'.mem s'.root (index virtualAddress) 3 = some table ∧
    decode 3 (s'.mem table (index virtualAddress 3)) = .leaf (fun _ => page) ∧
    (page.pat = false → has (s'.mem table (index virtualAddress 3)) huge = false)

/-- An attempt that ends early. -/
theorem OnTheWay.mapsPage {virtualAddress : ℕ} {page : Page} {mode : Overwrite} {e : MapError}
    (h : OnTheWay s s')
    (hfree : e = .outOfFrames → s'.free = []) :
    MapsPage s s' virtualAddress page mode (.error e) where
  inv := h.inv
  keeps := h.keeps
  giga := h.giga
  others := fun hq _ => h.same.maps_iff hq
  mapped := fun hok => by contradiction
  failed := fun _ => h.same
  accepted := fun hok => by contradiction
  exhausted := fun he => hfree (Except.error.inj he)
  small := fun hok => by contradiction

theorem MapsPage.after {s'' : Machine} {virtualAddress : ℕ} {page : Page} {mode : Overwrite}
    {r : Except MapError Unit}
    (h : OnTheWay s s') (h' : MapsPage s' s'' virtualAddress page mode r) :
    MapsPage s s'' virtualAddress page mode r where
  inv := h'.inv
  keeps := h.keeps.trans h'.keeps
  giga := fun hq => h.giga (h'.giga hq)
  others := fun hq hoff => (h'.others hq hoff).trans (h.same.maps_iff hq)
  mapped := h'.mapped
  failed := fun he => h.same.trans (h'.failed he)
  accepted := fun hok hmode _ hv =>
    h'.accepted hok hmode ((h.same.maps_iff (bounded_index virtualAddress)).mpr hv)
  exhausted := h'.exhausted
  small := h'.small

/-- The store at the end. -/
theorem Inv.setPage {virtualAddress physical : ℕ} {flags : PageFlags} {mode : Overwrite} (h : Inv s)
    (hp : route layout s.mem s.root (index virtualAddress) 3 = some table)
    (hdvd : physical % pageSize = 0) (hlt : physical < 2 ^ 52) :
    MapsPage s (s.setPage table (index virtualAddress 3)
      (BitVec.ofNat 64 physical ||| flags.bits) mode).2
      virtualAddress (flags.page physical) mode
      (s.setPage table (index virtualAddress 3) (BitVec.ofNat 64 physical ||| flags.bits)
        mode).1 := by
  have hnew := decode_page flags hdvd hlt
  have hnolink : ∀ (e : Word) g, decode 3 e ≠ .link g := fun e g hlink => by
    have := (decode_eq_link.mp hlink).2.1
    omega
  unfold Machine.setPage
  split_ifs with hreject
  · exact (OnTheWay.refl h).mapsPage fun he => by contradiction
  have hfresh : Fresh layout s.mem s.root 3 (BitVec.ofNat 64 physical ||| flags.bits) :=
    fun g hg => absurd hg (hnolink _ g)
  refine ⟨h.write hp ⟨hfresh, fun g hg => absurd hg (hnolink _ g), fun hk => by omega⟩,
    h.keeps_write hp (hnolink _) (hnolink _), fun {q} hq => ?_,
      fun {q v} _ hoff => h.tree.maps_store_of_not_agree hp hoff,
    fun _ {q} hon => ?_, fun {e} he => by contradiction, fun _ hmode {v} hv => ?_,
      fun he => by contradiction, fun _ => ?_⟩
  · obtain hold | ⟨hk, -⟩ | ⟨hk, -⟩ := leafAt_store h.tree hp hfresh hq
    · exact hold
    · omega
    · omega
  · exact (h.tree.maps_store_of_agree hp hfresh hon).mpr (.inl ⟨_, hnew, rfl⟩)
  · -- the old entry was absent or the new one
    cases hpresent : has (s.mem table (index virtualAddress 3)) present with
    | false => exact absurd hv (not_maps_of_absent hp (decode_of_not_present hpresent))
    | true =>
      have heq : s.mem table (index virtualAddress 3) = BitVec.ofNat 64 physical |||
        flags.bits := by
        simpa [hpresent, hmode] using hreject
      exact ((maps_of_leaf hp (by rw [heq]; exact hnew)).mp hv).symm
  · have hself : store s.mem table (index virtualAddress 3)
      (BitVec.ofNat 64 physical ||| flags.bits) table
        (index virtualAddress 3) = BitVec.ofNat 64 physical ||| flags.bits := store_self
    refine ⟨table, (h.tree.route_store_off hp (.inl le_rfl)).trans hp, ?_, fun hpat => ?_⟩
    · exact (congrArg (decode 3) hself).trans hnew
    · refine (congrArg (fun e => has e huge) hself).trans ?_
      have hsmall := has_huge_of_frame
        (ofNat_and_mask physMask4K_bits (Nat.dvd_of_mod_eq_zero hdvd) hlt)
      have hbit : has flags.bits huge = false := hpat
      rw [has_or, hsmall, hbit]
      rfl

/-- **Mapping a page** keeps what every other page maps, whatever comes of it; on success the page
is mapped as asked, and otherwise it is what it was. -/
theorem Inv.mapPageLocked {virtualAddress physical : ℕ} {flags : PageFlags} {mode : Overwrite}
    {r : Except MapError Unit} (h : Inv s)
    (hmap : s.mapPageLocked virtualAddress physical flags mode = some (r, s')) :
    MapsPage s s' virtualAddress (flags.page physical) mode r := by
  unfold Machine.mapPageLocked at hmap
  split_ifs at hmap with haligned hcanonical hphysical hlower hfrozen
  · obtain ⟨rfl, rfl⟩ := Prod.mk.inj (Option.some.inj hmap)
    exact (OnTheWay.refl h).mapsPage fun he => by contradiction
  · obtain ⟨rfl, rfl⟩ := Prod.mk.inj (Option.some.inj hmap)
    exact (OnTheWay.refl h).mapsPage fun he => by contradiction
  · obtain ⟨rfl, rfl⟩ := Prod.mk.inj (Option.some.inj hmap)
    exact (OnTheWay.refl h).mapsPage fun he => by contradiction
  rw [not_or, not_not, not_not] at haligned
  obtain ⟨hway, hsome, hnone⟩ :=
    h.child (p := index virtualAddress) (k := 0) rfl (by decide) (by simp)
  cases hchild : s.child s.root (index virtualAddress 0) with
  | mk found s₁ =>
    rw [hchild] at hmap hway hsome hnone
    cases found with
    | none =>
      obtain ⟨rfl, rfl⟩ := Prod.mk.inj (Option.some.inj hmap)
      exact hway.mapsPage fun _ => hnone rfl
    | some pdpt =>
      dsimp only at hmap
      obtain ⟨hway₂, hsome₂, hnone₂⟩ :=
        hway.inv.below (hsome pdpt rfl) (by decide) Nat.one_pos splits_pieces1G
      cases hbelow : s₁.below pdpt (index virtualAddress 1) pieces1G with
      | mk found₂ s₂ =>
        rw [hbelow] at hmap
        rw [Nat.zero_add, hbelow] at hway₂ hsome₂ hnone₂
        cases found₂ with
        | none =>
          obtain ⟨rfl, rfl⟩ := Prod.mk.inj (Option.some.inj hmap)
          exact (hway.trans hway₂).mapsPage fun _ => hnone₂ rfl
        | some pd =>
          dsimp only at hmap
          obtain ⟨hway₃, hsome₃, hnone₃⟩ :=
            hway₂.inv.below (hsome₂ pd rfl) (by decide) Nat.two_pos splits_pieces2M
          cases hbelow₃ : s₂.below pd (index virtualAddress 2) pieces2M with
          | mk found₃ s₃ =>
            rw [hbelow₃] at hmap
            rw [hbelow₃] at hway₃ hsome₃ hnone₃
            cases found₃ with
            | none =>
              obtain ⟨rfl, rfl⟩ := Prod.mk.inj (Option.some.inj hmap)
              exact ((hway.trans hway₂).trans hway₃).mapsPage fun _ => hnone₃ rfl
            | some pt =>
              obtain ⟨rfl, rfl⟩ := Prod.mk.inj (Option.some.inj hmap)
              exact .after ((hway.trans hway₂).trans hway₃)
                (hway₃.inv.setPage (hsome₃ pt rfl) haligned.2 (not_le.mp hphysical))

end Machine

end SaeOS.KernelTables
