import Mathlib.Tactic.IntervalCases
import Mathlib.Tactic.NormNum
import SaeOS.Mm.KernelTablesMap

/-!
# Mapping ranges of kernel pages

`map_leaf`, `map_range` and `map_mmio`: after success every page of the range is mapped to its place
in physical memory, and no other page has changed. A chunk of 2 MiB must not lie under a leaf of 1
GiB: `map_leaf` would take what that leaf maps for a page directory.
-/

namespace SaeOS.KernelTables

open TableTree

namespace Machine

/-- What an address is mapped to. -/
def MapsTo (s : Machine) (virtualAddress : ℕ) (page : Page) : Prop :=
  Maps layout s.mem s.root (index virtualAddress) page

end Machine

open Machine

/-- A 64-bit address that `is_canonical` accepts. -/
def Canonical (virtualAddress : ℕ) : Prop :=
  virtualAddress < 2 ^ 47 ∨ kernelVirtBase ≤ virtualAddress ∧ virtualAddress < 2 ^ 64

variable {s s' s'' : Machine} {va pa x y n m : ℕ} {flags : PageFlags} {page : Page}

theorem canonical_of (h : isCanonical va = true) (hlt : va < 2 ^ 64) : Canonical va := by
  unfold isCanonical at h
  rw [Bool.or_eq_true, decide_eq_true_eq, decide_eq_true_eq] at h
  exact h.imp_right fun hge => ⟨hge, hlt⟩

/-- Canonical addresses with the same indices lie in the same leaf. -/
theorem agree_index_iff {k : ℕ} (hx : Canonical x) (hy : Canonical y) (h0 : 0 < k) (hk : k ≤ 3) :
    Agree (k + 1) (index x) (index y) ↔ x / 2 ^ (39 - 9 * k) = y / 2 ^ (39 - 9 * k) := by
  have hbase : kernelVirtBase = 18446603336221196288 := rfl
  simp only [Canonical, hbase] at hx hy
  simp only [Agree, index]
  constructor
  · intro h
    have h1 := h 0 (by omega)
    have h2 := h 1 (by omega)
    obtain rfl | rfl | rfl : k = 1 ∨ k = 2 ∨ k = 3 := by omega
    · norm_num at h1 h2 ⊢
      omega
    · have h3 := h 2 (by omega)
      norm_num at h1 h2 h3 ⊢
      omega
    · have h3 := h 2 (by omega)
      have h4 := h 3 (by omega)
      norm_num at h1 h2 h3 h4 ⊢
      omega
  · intro h d hd
    obtain rfl | rfl | rfl : k = 1 ∨ k = 2 ∨ k = 3 := by omega
    · interval_cases d <;> norm_num at h ⊢ <;> omega
    · interval_cases d <;> norm_num at h ⊢ <;> omega
    · interval_cases d <;> norm_num at h ⊢ <;> omega

/-! ## Runs of pages -/

/-- `n` pages from `va` on are mapped to `pa` and what follows, and no other page changes. -/
structure MapsPages (s s' : Machine) (va pa : ℕ) (flags : PageFlags) (n : ℕ) : Prop where
  inv : Inv s'
  keeps : Keeps s s'
  /-- A leaf of 1 GiB is only put where all of it is mapped. -/
  giga : ∀ {x}, LeafAt s' 1 (index x) → LeafAt s 1 (index x) ∨
    ∃ y, Agree 2 (index x) (index y) ∧ Canonical y ∧ va / pageSize ≤ y / gigabyte * 2 ^ 18 ∧
      (y / gigabyte + 1) * 2 ^ 18 ≤ va / pageSize + n
  mapped : ∀ {i x}, i < n → Canonical x → x / pageSize = va / pageSize + i →
    s'.MapsTo x (flags.page (pa + i * pageSize))
  others : ∀ {x v}, Canonical x → (∀ i < n, x / pageSize ≠ va / pageSize + i) →
    (s'.MapsTo x v ↔ s.MapsTo x v)

theorem MapsPages.refl (h : Inv s) (va pa : ℕ) (flags : PageFlags) : MapsPages s s va pa flags 0 :=
  ⟨h, .refl s, .inl, fun hi => absurd hi (Nat.not_lt_zero _), fun _ _ => Iff.rfl⟩

theorem MapsPages.trans (h : MapsPages s s' va pa flags n)
    (h' : MapsPages s' s'' (va + n * pageSize) (pa + n * pageSize) flags m) :
    MapsPages s s'' va pa flags (n + m) := by
  have hpage : (va + n * pageSize) / pageSize = va / pageSize + n :=
    Nat.add_mul_div_right _ _ (by decide)
  refine ⟨h'.inv, h.keeps.trans h'.keeps, fun {x} hleaf => ?_, fun {i x} hi hx heq => ?_,
    fun {x v} hx hout => ?_⟩
  · obtain hleaf | ⟨y, hagree, hy, hle, hlast⟩ := h'.giga hleaf
    · refine (h.giga hleaf).imp_right ?_
      rintro ⟨y, hagree, hy, hle, hlast⟩
      exact ⟨y, hagree, hy, hle, by omega⟩
    · rw [hpage] at hle hlast
      exact .inr ⟨y, hagree, hy, by omega, by omega⟩
  · by_cases hin : i < n
    · refine (h'.others hx fun j hj => ?_).mpr (h.mapped hin hx heq)
      rw [hpage]
      omega
    · have hmapped := h'.mapped (show i - n < m by omega) hx (by rw [hpage]; omega)
      rwa [Nat.add_assoc, ← Nat.add_mul, Nat.add_sub_cancel' (not_lt.mp hin)] at hmapped
  · refine (h'.others hx fun j hj => ?_).trans (h.others hx fun i hi => hout i (by omega))
    rw [hpage, Nat.add_assoc]
    exact hout (n + j) (by omega)

/-- One page. -/
theorem Machine.MapsPage.mapsPages {mode : Overwrite} {r : Except MapError Unit}
    (h : MapsPage s s' va (flags.page pa) mode r) (hva : r = .ok () → Canonical va) :
    MapsPages s s' va pa flags (if r = .ok () then 1 else 0) := by
  by_cases hok : r = .ok ()
  · rw [if_pos hok]
    have hpage : ∀ {x}, Canonical x →
      (Agree 4 (index x) (index va) ↔ x / pageSize = va / pageSize) :=
      fun hx => agree_index_iff hx (hva hok) (by decide) le_rfl
    refine ⟨h.inv, h.keeps, fun hleaf => .inl (h.giga hleaf), fun {i x} hi hx heq => ?_,
      fun {x v} hx hout => ?_⟩
    · obtain rfl : i = 0 := by omega
      rw [Nat.zero_mul, Nat.add_zero]
      exact h.mapped hok ((hpage hx).mpr heq)
    · refine h.others (bounded_index x) fun hagree => hout 0 Nat.one_pos ?_
      exact (hpage hx).mp hagree
  · rw [if_neg hok]
    obtain ⟨e, rfl⟩ : ∃ e, r = .error e := by
      cases r with
      | error e => exact ⟨e, rfl⟩
      | ok _ => exact absurd rfl hok
    exact ⟨h.inv, h.keeps, fun hleaf => .inl (h.giga hleaf),
      fun hi => absurd hi (Nat.not_lt_zero _),
      fun {x v} _ _ => (h.failed rfl).maps_iff (bounded_index x)⟩

theorem mapPageLocked_ok {mode : Overwrite}
    (h : s.mapPageLocked va pa flags mode = some (.ok (), s')) :
    va % pageSize = 0 ∧ pa % pageSize = 0 ∧ isCanonical va = true ∧ pa < 2 ^ 52 := by
  unfold Machine.mapPageLocked at h
  by_cases haligned : va % pageSize ≠ 0 ∨ pa % pageSize ≠ 0
  · rw [if_pos haligned] at h
    exact absurd (congrArg Prod.fst (Option.some.inj h)) (by simp)
  rw [if_neg haligned] at h
  rw [not_or, not_not, not_not] at haligned
  by_cases hcanonical : isCanonical va = true
  · rw [hcanonical, Bool.not_true, if_neg Bool.false_ne_true] at h
    by_cases hphysical : pa ≥ 2 ^ 52
    · rw [if_pos hphysical] at h
      contradiction
    · exact ⟨haligned.1, haligned.2, hcanonical, not_le.mp hphysical⟩
  · rw [Bool.not_eq_true] at hcanonical
    rw [hcanonical, Bool.not_false, if_pos rfl] at h
    exact absurd (congrArg Prod.fst (Option.some.inj h)) (by simp)

/-- `fillPages` maps pages up to the first failure. -/
theorem Machine.Inv.fillPages {count : ℕ} {r : Except MapError Unit} (h : Inv s)
    (hfill : Machine.fillPages flags count s va pa = some (r, s')) :
    ∃ n ≤ count, MapsPages s s' va pa flags n ∧ (r = .ok () → n = count) := by
  -- induction on the pages that are left
  induction count generalizing s va pa with
  | zero =>
    obtain ⟨rfl, rfl⟩ := Prod.mk.inj (Option.some.inj hfill)
    exact ⟨0, le_rfl, .refl h va pa flags, fun _ => rfl⟩
  | succ count ih =>
    rw [Machine.fillPages] at hfill
    split_ifs at hfill with hlimit
    cases hmap : s.mapPageLocked va pa flags .replace with
    | none =>
      rw [hmap] at hfill
      contradiction
    | some found =>
      obtain ⟨r₁, s₁⟩ := found
      rw [hmap] at hfill
      have hone := h.mapPageLocked hmap
      cases r₁ with
      | error e =>
        obtain ⟨rfl, rfl⟩ := Prod.mk.inj (Option.some.inj hfill)
        refine ⟨0, Nat.zero_le _, ?_, fun hok => by contradiction⟩
        exact hone.mapsPages fun hok => by contradiction
      | ok _ =>
        have hpage := hone.mapsPages fun _ => canonical_of (mapPageLocked_ok hmap).2.2.1
          (not_le.mp hlimit)
        obtain ⟨n, hn, hpages, hall⟩ := ih hone.inv hfill
        rw [if_pos rfl] at hpage
        refine ⟨1 + n, by omega, hpage.trans ?_, fun hok => by rw [hall hok, Nat.add_comm]⟩
        rwa [Nat.one_mul]

/-! ## Leaves -/

/-- The flags of a range say nothing about the PAT. -/
def PageFlags.Plain (flags : PageFlags) : Prop :=
  has flags.bits pat4K = false

theorem rangeFlags_plain (kind : PhysicalMemoryKind) : (rangeFlags kind).Plain := by
  unfold PageFlags.Plain
  cases kind <;> decide

/-- The entry that `map_leaf` stores. -/
theorem decode_leaf {k : ℕ} (hplain : flags.Plain) (hk : k = 1 ∨ k = 2)
    (hdvd : 2 ^ (39 - 9 * k) ∣ pa)
    (hlt : pa < 2 ^ 52) :
    ∃ value, decode k (BitVec.ofNat 64 pa ||| flags.bits ||| huge) = .leaf value ∧
      ∀ x, value (index x) = flags.page
        (pa + x / pageSize % (2 ^ (39 - 9 * k) / pageSize) * pageSize) := by
  have hpresent : has (BitVec.ofNat 64 pa ||| flags.bits ||| huge) present = true := by
    rw [has_or, has_or, flags.present_eq, Bool.or_true, Bool.true_or]
  have hhuge : has (BitVec.ofNat 64 pa ||| flags.bits ||| huge) huge = true := by
    rw [has_or, show has huge huge = true by decide, Bool.or_true]
  have hsmall : 2 ^ 12 ∣ pa := (pow_dvd_pow 2 (by omega)).trans hdvd
  have hmask4K := ofNat_and_mask physMask4K_bits hsmall hlt
  have hattributes : (BitVec.ofNat 64 pa ||| flags.bits ||| huge) &&& leafAttributes =
    flags.bits &&& leafAttributes := by
    rw [BitVec.and_or_distrib_right, BitVec.and_or_distrib_right,
      and_eq_zero_of hmask4K (by decide), BitVec.zero_or,
      show huge &&& leafAttributes = 0#64 by decide, BitVec.or_zero]
  have haddress : ∀ mask : Word, mask &&& physMask4K = mask → huge &&& mask = 0#64 →
      BitVec.ofNat 64 pa &&& mask = BitVec.ofNat 64 pa →
      ((BitVec.ofNat 64 pa ||| flags.bits ||| huge) &&& mask).toNat = pa := by
    intro mask hsub hhuge hmask
    have hflags : flags.bits &&& mask = 0#64 := by
      rw [← hsub, BitVec.and_comm mask, ← BitVec.and_assoc, flags.address_eq, BitVec.zero_and]
    rw [BitVec.and_or_distrib_right, BitVec.and_or_distrib_right, hmask, hflags, hhuge,
      BitVec.or_zero, BitVec.or_zero,
      BitVec.toNat_ofNat, Nat.mod_eq_of_lt (by omega)]
  have hpat : has (BitVec.ofNat 64 pa ||| flags.bits ||| huge) pat = has flags.bits pat4K := by
    rw [hplain, has_or, has_or, show has huge pat = false by decide, Bool.or_false]
    -- an aligned frame has a bit there only in its address, which a huge leaf has not
    have hlow : has (BitVec.ofNat 64 pa) pat = false := by
      obtain rfl | rfl := hk
      · exact has_of_and_eq (ofNat_and_mask physMask1G_bits hdvd hlt) (by decide)
      · exact has_of_and_eq (ofNat_and_mask physMask2M_bits hdvd hlt) (by decide)
    have hflags : has flags.bits pat = false := by
      unfold has
      rw [show (pat : Word) = physMask4K &&& pat by decide, ← BitVec.and_assoc, flags.address_eq,
        BitVec.zero_and]
      rfl
    rw [hlow, hflags, Bool.or_false]
  unfold decode
  rw [if_neg (by simp [hpresent]), if_neg (by omega), if_pos ⟨by omega, hhuge⟩]
  refine ⟨_, rfl, fun x => ?_⟩
  obtain rfl | rfl := hk
  · rw [if_pos rfl]
    simp only [leafPage, hattributes, hpat, PageFlags.page, Page.mk.injEq, and_true,
      haddress _ (show physMask1G &&& physMask4K = physMask1G by decide) (by decide)
        (ofNat_and_mask physMask1G_bits hdvd hlt)]
    simp only [index, twoMib, pageSize]
    norm_num
    omega
  · rw [if_neg (show ¬(2 : ℕ) = 1 by decide)]
    simp only [leafPage, hattributes, hpat, PageFlags.page, Page.mk.injEq, and_true,
      haddress _ (show physMask2M &&& physMask4K = physMask2M by decide) (by decide)
        (ofNat_and_mask physMask2M_bits hdvd hlt)]
    simp only [index, pageSize]
    norm_num

theorem MapsPages.after (h : OnTheWay s s') (h' : MapsPages s' s'' va pa flags n) :
    MapsPages s s'' va pa flags n where
  inv := h'.inv
  keeps := h.keeps.trans h'.keeps
  giga := fun hleaf => (h'.giga hleaf).imp_left h.giga
  mapped := h'.mapped
  others := fun {x _} hx hout => (h'.others hx hout).trans (h.same.maps_iff (bounded_index x))

/-- The leaf sizes above a page, by the depth of the leaf. -/
def leafSize (k : ℕ) : ℕ :=
  2 ^ (39 - 9 * k)

/-- A leaf that `map_leaf` stores over a leaf or an empty entry. -/
theorem Machine.Inv.storeLeaf {k : ℕ} {table : Word} (h : Inv s) (hplain : flags.Plain)
    (hk : k = 1 ∨ k = 2)
    (hroute : route layout s.mem s.root (index va) k = some table)
    (hfree : ¬(has (s.mem table (index va k)) present &&
      !has (s.mem table (index va k)) huge) = true)
    (hva : va % leafSize k = 0) (hpa : pa % leafSize k = 0) (hlt : pa < 2 ^ 52)
    (hcanonical : Canonical va) :
    MapsPages s (s.write table (index va k) (BitVec.ofNat 64 pa ||| flags.bits ||| huge)) va pa
      flags
      (leafSize k / pageSize) := by
  obtain ⟨value, hvalue, hpages⟩ := decode_leaf hplain hk (Nat.dvd_of_mod_eq_zero hpa) hlt
  have hnew : ∀ g, decode k (BitVec.ofNat 64 pa ||| flags.bits ||| huge) ≠ .link g := fun g hg => by
    rw [hvalue] at hg
    contradiction
  have hold : ∀ g, decode k (s.mem table (index va k)) ≠ .link g := by
    intro g hg
    obtain ⟨hpresent, -, hhuge, -⟩ := decode_eq_link.mp hg
    refine hfree ?_
    have hnot : has (s.mem table (index va k)) huge = false := by
      rw [← Bool.not_eq_true]
      exact fun hh => hhuge ⟨by omega, hh⟩
    rw [hpresent, hnot]
    rfl
  have hfresh : Fresh layout s.mem s.root k (BitVec.ofNat 64 pa ||| flags.bits ||| huge) :=
    fun g hg => absurd hg (hnew g)
  have hagree : ∀ {x}, Canonical x →
    (Agree (k + 1) (index x) (index va) ↔ x / leafSize k = va / leafSize k) :=
    fun hx => agree_index_iff hx hcanonical (by omega) (by omega)
  have hsize : leafSize k = gigabyte ∨ leafSize k = twoMib := by
    obtain rfl | rfl := hk
    · exact .inl rfl
    · exact .inr rfl
  -- the pages of the leaf
  have hpage : ∀ x i, i < leafSize k / pageSize → x / pageSize = va / pageSize + i →
      x / leafSize k = va / leafSize k ∧ x / pageSize % (leafSize k / pageSize) = i := by
    intro x i hi hx
    simp only [gigabyte, twoMib, pageSize] at hsize hi hx ⊢
    obtain heq | heq := hsize
    · rw [heq] at hi hva ⊢
      norm_num at hi hva ⊢
      omega
    · rw [heq] at hi hva ⊢
      norm_num at hi hva ⊢
      omega
  refine ⟨h.write hroute ⟨hfresh, fun g hg => absurd hg (hnew g), fun _ hnone => ?_⟩,
    h.keeps_write hroute hold hnew, fun {x} hleaf => ?_, fun {i x} hi hx heq => ?_,
      fun {x v} hx hout => ?_⟩
  · rw [has_or, show has huge present = false by decide, Bool.or_false, has_or, flags.present_eq,
      Bool.or_true] at hnone
    contradiction
  · obtain hleaf | ⟨hk1, hon, -⟩ | ⟨hk1, -⟩ := leafAt_store h.tree hroute hfresh hleaf
    · exact .inl hleaf
    · subst hk1
      refine .inr ⟨va, hon, hcanonical, ?_, ?_⟩
      · simp only [leafSize, gigabyte, pageSize] at hva ⊢
        norm_num at hva ⊢
        omega
      · simp only [leafSize, gigabyte, pageSize] at hva ⊢
        norm_num at hva ⊢
        omega
    · omega
  · obtain ⟨hsame, hindex⟩ := hpage x i hi heq
    refine (h.tree.maps_store_of_agree hroute hfresh ((hagree hx).mpr hsame)).mpr
      (.inl ⟨value, hvalue, ?_⟩)
    rw [hpages]
    congr 3
  · refine h.tree.maps_store_of_not_agree hroute fun hon => ?_
    have hsame := (hagree hx).mp hon
    refine hout (x / pageSize - va / pageSize) ?_ ?_
    · simp only [gigabyte, twoMib, pageSize] at hsize ⊢
      obtain heq | heq := hsize
      · rw [heq] at hsame hva ⊢
        norm_num at hsame hva ⊢
        omega
      · rw [heq] at hsame hva ⊢
        norm_num at hsame hva ⊢
        omega
    · simp only [gigabyte, twoMib, pageSize] at hsize ⊢
      obtain heq | heq := hsize
      · rw [heq] at hsame hva
        norm_num at hsame hva
        omega
      · rw [heq] at hsame hva
        norm_num at hsame hva
        omega

/-- The way to the slot of a huge leaf. A leaf of 2 MiB is not put under one of 1 GiB. -/
theorem Machine.Inv.leafSlot {k size : ℕ} (h : Inv s) (hk : k = 1 ∨ k = 2)
    (hsize : size = leafSize k)
    (hclear : k = 2 → ¬LeafAt s 1 (index va)) :
    OnTheWay s (s.leafSlot va size).2 ∧ ∀ table i, (s.leafSlot va size).1 = some (table, i) →
      i = index va k ∧ route layout (s.leafSlot va size).2.mem (s.leafSlot va size).2.root
        (index va) k = some table := by
  obtain ⟨hway, hsome, -⟩ := h.child (p := index va) (k := 0) rfl (by decide) (by simp)
  unfold Machine.leafSlot
  cases hchild : s.child s.root (index va 0) with
  | mk found s₁ =>
    rw [hchild] at hway hsome
    cases found with
    | none => exact ⟨hway, fun table i ht => by contradiction⟩
    | some pdpt =>
      have hroute := hsome pdpt rfl
      dsimp only
      obtain rfl | rfl := hk
      · rw [if_pos (show size = gigabyte from hsize)]
        refine ⟨hway, fun table i ht => ?_⟩
        obtain ⟨rfl, rfl⟩ := Prod.mk.inj (Option.some.inj ht)
        exact ⟨rfl, hroute⟩
      · rw [if_neg (by rw [hsize]; decide)]
        have hleaf : ¬(0 < 1 ∧ has (s₁.mem pdpt (index va 1)) huge = true) := by
          rintro ⟨-, hhuge⟩
          refine hclear rfl (hway.giga ?_)
          have hpresent : has (s₁.mem pdpt (index va 1)) present = true := by
            by_contra hnone
            rw [hway.inv.blank hroute (by decide) (by simpa using hnone)] at hhuge
            contradiction
          refine ⟨pdpt, fun p => leafPage (s₁.mem pdpt (index va 1)) physMask1G pat
            (p 2 * twoMib + p 3 * pageSize), hroute, ?_⟩
          simp [decode, hpresent, hhuge]
        obtain ⟨hway', hsome', -⟩ := hway.inv.child hroute (by decide) hleaf
        cases hchild' : s₁.child pdpt (index va 1) with
        | mk found' s₂ =>
          rw [Nat.zero_add, hchild'] at hway' hsome'
          cases found' with
          | none => exact ⟨hway.trans hway', fun table i ht => by contradiction⟩
          | some pd =>
            refine ⟨hway.trans hway', fun table i ht => ?_⟩
            obtain ⟨rfl, rfl⟩ := Prod.mk.inj (Option.some.inj ht)
            exact ⟨rfl, hsome' pd rfl⟩

/-- A huge leaf is mapped as a whole, or page by page where there is a finer table. -/
theorem Machine.Inv.mapLeaf {k size : ℕ} {r : Except MapError Unit} (h : Inv s)
    (hplain : flags.Plain)
    (hk : k = 1 ∨ k = 2 ∨ k = 3) (hsize : size = leafSize k) (hva : va % size = 0)
    (hpa : pa % size = 0)
    (hlt : pa < 2 ^ 52) (hlimit : va < 2 ^ 64) (hclear : k = 2 → ¬LeafAt s 1 (index va))
    (hmap : s.mapLeaf va pa size flags = some (r, s')) :
    ∃ n ≤ size / pageSize, MapsPages s s' va pa flags n ∧ (r = .ok () → n = size / pageSize) := by
  unfold Machine.mapLeaf at hmap
  by_cases hpage : size = pageSize
  · rw [if_pos hpage] at hmap
    have hone := h.mapPageLocked hmap
    refine ⟨_, ?_, hone.mapsPages fun hok => ?_, fun hok => ?_⟩
    · rw [hpage, Nat.div_self (by decide)]
      split_ifs <;> decide
    · subst hok
      exact canonical_of (mapPageLocked_ok hmap).2.2.1 hlimit
    · rw [if_pos hok, hpage, Nat.div_self (by decide)]
  · rw [if_neg hpage] at hmap
    have hk : k = 1 ∨ k = 2 := by
      obtain rfl | rfl | rfl := hk
      · exact .inl rfl
      · exact .inr rfl
      · exact absurd hsize hpage
    by_cases hcanonical : isCanonical va = true
    · rw [hcanonical, Bool.not_true, if_neg Bool.false_ne_true] at hmap
      obtain ⟨hway, hslot⟩ := h.leafSlot hk hsize hclear
      cases hfound : s.leafSlot va size with
      | mk found s₁ =>
        rw [hfound] at hmap hway hslot
        cases found with
        | none =>
          obtain ⟨rfl, rfl⟩ := Prod.mk.inj (Option.some.inj hmap)
          exact ⟨0, Nat.zero_le _, .after hway (.refl hway.inv va pa flags),
            fun hok => by contradiction⟩
        | some slot =>
          obtain ⟨table, i⟩ := slot
          obtain ⟨rfl, hroute⟩ := hslot table i rfl
          dsimp only at hmap
          by_cases hfiner : (has (s₁.mem table (index va k)) present &&
            !has (s₁.mem table (index va k)) huge) = true
          · rw [if_pos hfiner] at hmap
            obtain ⟨n, hn, hpages, hall⟩ := hway.inv.fillPages hmap
            exact ⟨n, hn, .after hway hpages, hall⟩
          · rw [if_neg hfiner] at hmap
            obtain ⟨rfl, rfl⟩ := Prod.mk.inj (Option.some.inj hmap)
            subst hsize
            exact ⟨_, le_rfl, .after hway (hway.inv.storeLeaf hplain hk hroute hfiner hva hpa hlt
              (canonical_of hcanonical hlimit)), fun _ => rfl⟩
    · rw [Bool.not_eq_true] at hcanonical
      rw [hcanonical, Bool.not_false, if_pos rfl] at hmap
      obtain ⟨rfl, rfl⟩ := Prod.mk.inj (Option.some.inj hmap)
      exact ⟨0, Nat.zero_le _, .refl h va pa flags, fun hok => by contradiction⟩

/-! ## Ranges -/

/-- The pages that a range touches from its start on. -/
def pagesIn (start stop : ℕ) : ℕ :=
  (stop - start + pageSize - 1) / pageSize

/-- The chunks of a range, with their sizes. -/
def chunks (kind : PhysicalMemoryKind) (gigabytePages : Bool) (stop : ℕ) : ℕ → ℕ → List (ℕ × ℕ)
  | 0, _ => []
  | budget + 1, physical =>
    if physical < stop then
      let size := chunkSize kind gigabytePages physical (stop - physical)
      (physical, size) :: chunks kind gigabytePages stop budget (physical + size)
    else []

theorem chunks_of_le {kind : PhysicalMemoryKind} {gigabytePages : Bool} {stop budget physical : ℕ}
    (h : stop ≤ physical) : chunks kind gigabytePages stop budget physical = [] := by
  cases budget with
  | zero => rfl
  | succ budget => exact if_neg (not_lt.mpr h)

theorem le_of_mem_chunks {kind : PhysicalMemoryKind} {gigabytePages : Bool}
    {stop budget physical : ℕ} {c : ℕ × ℕ}
    (h : c ∈ chunks kind gigabytePages stop budget physical) : physical ≤ c.1 ∧ c.1 < stop := by
  induction budget generalizing physical with
  | zero => cases h
  | succ budget ih =>
    rw [chunks] at h
    split_ifs at h with hlt
    · obtain rfl | h := List.mem_cons.mp h
      · exact ⟨le_rfl, hlt⟩
      · have := ih h
        omega
    · cases h

/-- What `map_range` chooses. -/
theorem chunkSize_cases (kind : PhysicalMemoryKind) (gigabytePages : Bool)
    (physical remaining : ℕ) :
    ∃ k, (k = 1 ∨ k = 2 ∨ k = 3) ∧ chunkSize kind gigabytePages physical remaining = leafSize k ∧
      (k ≠ 3 → physical % leafSize k = 0 ∧ leafSize k ≤ remaining) := by
  unfold chunkSize
  split_ifs with hgiga htwo
  · exact ⟨1, .inl rfl, rfl, fun _ => ⟨hgiga.2.2.1, hgiga.2.2.2⟩⟩
  · exact ⟨2, .inr (.inl rfl), rfl, fun _ => ⟨htwo.2.1, htwo.2.2⟩⟩
  · exact ⟨3, .inr (.inr rfl), rfl, fun hne => absurd rfl hne⟩

/-- No chunk of 2 MiB lies under a leaf of 1 GiB. -/
def Clear (s : Machine) (offset : ℕ) (chunks : List (ℕ × ℕ)) : Prop :=
  ∀ c ∈ chunks, c.2 = twoMib → ¬LeafAt s 1 (index (offset + c.1))

/-- The loop of `map_range`. -/
theorem Machine.Inv.mapChunks {kind : PhysicalMemoryKind} {gigabytePages : Bool}
    {stop offset budget physical : ℕ}
    {r : Except MapError Unit} (h : Inv s) (hoffset : offset = 0 ∨ offset = kernelVirtBase)
    (hstop : stop ≤ mapLimit)
    (hbudget : stop - physical ≤ budget)
    (hclear : Clear s offset (chunks kind gigabytePages stop budget physical))
    (hmap : Machine.mapChunks kind gigabytePages stop offset budget s physical = some (r, s')) :
    ∃ n ≤ pagesIn physical stop, MapsPages s s' (offset + physical) physical (rangeFlags kind) n ∧
      (r = .ok () → n = pagesIn physical stop) := by
  have hbase : kernelVirtBase = 18446603336221196288 := rfl
  have hlimit : mapLimit = 140737488355328 := by decide
  -- induction on the budget, which covers the rest of the range
  induction budget generalizing s physical with
  | zero =>
    obtain ⟨rfl, rfl⟩ := Prod.mk.inj (Option.some.inj hmap)
    refine ⟨0, Nat.zero_le _, .refl h _ _ _, fun _ => ?_⟩
    rw [pagesIn, show stop - physical = 0 by omega]
    decide
  | succ budget ih =>
    rw [Machine.mapChunks] at hmap
    rw [chunks] at hclear
    by_cases hlt : physical < stop
    · rw [if_pos hlt] at hmap hclear
      obtain ⟨k, hk, hsize, hfits⟩ := chunkSize_cases kind gigabytePages physical (stop - physical)
      dsimp only at hmap hclear
      rw [hsize] at hmap hclear
      have hpos : pageSize ≤ leafSize k ∧ leafSize k % pageSize = 0 ∧ leafSize k ≤ 2 ^ 30 := by
        obtain rfl | rfl | rfl := hk <;> decide
      have hsteps : pagesIn physical stop =
          leafSize k / pageSize + pagesIn (physical + leafSize k) stop := by
        unfold pagesIn
        have hcover : leafSize k ≤ stop - physical ∨ leafSize k = pageSize := by
          by_cases hk3 : k = 3
          · subst hk3
            exact .inr rfl
          · exact .inl (hfits hk3).2
        obtain ⟨hle, hmod, -⟩ := hpos
        simp only [pageSize] at hle hmod hcover ⊢
        omega
      by_cases haligned : physical % leafSize k = 0
      · cases hleaf : s.mapLeaf (offset + physical) physical (leafSize k) (rangeFlags kind) with
        | none =>
          rw [hleaf] at hmap
          contradiction
        | some found =>
          obtain ⟨r₁, s₁⟩ := found
          rw [hleaf] at hmap
          have hva : (offset + physical) % leafSize k = 0 := by
            obtain rfl | rfl := hoffset
            · rwa [Nat.zero_add]
            · have hdvd : leafSize k ∣ kernelVirtBase := by
                obtain rfl | rfl | rfl := hk <;> decide
              exact Nat.mod_eq_zero_of_dvd
                ((Nat.dvd_add_right hdvd).mpr (Nat.dvd_of_mod_eq_zero haligned))
          have hfirst : k = 2 → ¬LeafAt s 1 (index (offset + physical)) := by
            rintro rfl
            exact hclear (physical, leafSize 2) List.mem_cons_self rfl
          have hphysical : physical < 2 ^ 52 := by omega
          have hvirtual : offset + physical < 2 ^ 64 := by omega
          obtain ⟨n, hn, hpages, hall⟩ :=
            h.mapLeaf (rangeFlags_plain kind) hk rfl hva haligned hphysical hvirtual
            hfirst hleaf
          cases r₁ with
          | error e =>
            obtain ⟨rfl, rfl⟩ := Prod.mk.inj (Option.some.inj hmap)
            exact ⟨n, hn.trans (hsteps ▸ Nat.le_add_right _ _), hpages, fun hok => by contradiction⟩
          | ok _ =>
            obtain rfl := hall rfl
            have hwhole : leafSize k / pageSize * pageSize = leafSize k :=
              Nat.div_mul_cancel (Nat.dvd_of_mod_eq_zero hpos.2.1)
            -- a leaf of 1 GiB that was just put is behind us
            have hclear' : Clear s₁ offset
              (chunks kind gigabytePages stop budget (physical + leafSize k)) := by
              intro c hc htwo hleafAt
              obtain hold | ⟨y, hagree, hy, -, hlast⟩ := hpages.giga hleafAt
              · exact hclear c (List.mem_cons_of_mem _ hc) htwo hold
              · have hbounds := le_of_mem_chunks hc
                have hx : Canonical (offset + c.1) := by
                  rw [Canonical, hbase]
                  omega
                have hsame := (agree_index_iff hx hy (by decide) (by decide)).mp hagree
                simp only [gigabyte, pageSize] at hsame hlast hwhole
                norm_num at hsame hlast
                omega
            have hprogress : 0 < leafSize k := Nat.two_pow_pos _
            have hleft : stop - (physical + leafSize k) ≤ budget := by omega
            obtain ⟨m, hm, hrest, hall'⟩ := ih hpages.inv hleft hclear' hmap
            refine ⟨leafSize k / pageSize + m, by omega, hpages.trans ?_,
              fun hok => by rw [hall' hok, hsteps]⟩
            rw [hwhole, Nat.add_assoc]
            exact hrest
      · -- an address that is not aligned is refused at once
        have hk3 : k = 3 := by
          by_contra hne
          exact haligned (hfits hne).1
        subst hk3
        have hrefused : s.mapLeaf (offset + physical) physical (leafSize 3) (rangeFlags kind) =
            some (.error .unaligned, s) := by
          unfold Machine.mapLeaf Machine.mapPageLocked
          rw [if_pos (show leafSize 3 = pageSize by decide), if_pos (.inr haligned)]
        rw [hrefused] at hmap
        obtain ⟨rfl, rfl⟩ := Prod.mk.inj (Option.some.inj hmap)
        exact ⟨0, Nat.zero_le _, .refl h _ _ _, fun hok => by contradiction⟩
    · rw [if_neg hlt] at hmap
      obtain ⟨rfl, rfl⟩ := Prod.mk.inj (Option.some.inj hmap)
      refine ⟨0, Nat.zero_le _, .refl h _ _ _, fun _ => ?_⟩
      rw [pagesIn, show stop - physical = 0 by omega]
      decide

/-- Where `map_range` puts physical addresses. -/
def rangeOffset (direct : Bool) : ℕ :=
  if direct then kernelVirtBase else 0

/-- `map_range` maps every page of its range, or a part of them up to a failure. -/
theorem Machine.Inv.mapRange {start stop : ℕ} {direct : Bool} {kind : PhysicalMemoryKind}
    {gigabytePages : Bool}
    {r : Except MapError Unit} (h : Inv s)
    (hclear : Clear s (rangeOffset direct) (chunks kind gigabytePages stop (stop - start) start))
    (hmap : s.mapRange start stop direct kind gigabytePages = some (r, s')) :
    ∃ n ≤ pagesIn start stop,
      MapsPages s s' (rangeOffset direct + start) start (rangeFlags kind) n ∧
      (r = .ok () → n = pagesIn start stop) := by
  unfold Machine.mapRange at hmap
  split_ifs at hmap with hempty hlimit hdirect
  · obtain ⟨rfl, rfl⟩ := Prod.mk.inj (Option.some.inj hmap)
    refine ⟨0, Nat.zero_le _, .refl h _ _ _, fun _ => ?_⟩
    rw [pagesIn, show stop - start = 0 by omega]
    decide
  · obtain ⟨rfl, rfl⟩ := Prod.mk.inj (Option.some.inj hmap)
    exact ⟨0, Nat.zero_le _, .refl h _ _ _, fun hok => by contradiction⟩
  · rw [rangeOffset, if_pos hdirect] at hclear ⊢
    exact h.mapChunks (.inr rfl) (not_lt.mp hlimit) le_rfl hclear hmap
  · rw [rangeOffset, if_neg hdirect] at hclear ⊢
    exact h.mapChunks (.inl rfl) (not_lt.mp hlimit) le_rfl hclear hmap

/-- The pages of device registers from the one of `physical` on. -/
def mmioPages (physical length : ℕ) : ℕ :=
  (physical + max length 1 + pageSize - 1) / pageSize - physical / pageSize

/-- `map_mmio` maps the pages of the registers uncached, or a part of them up to a failure. -/
theorem Machine.Inv.mapMmio {physical length : ℕ} {r : Except MapError ℕ} (h : Inv s)
    (hmap : s.mapMmio physical length = some (r, s')) :
    ∃ n ≤ mmioPages physical length,
      MapsPages s s' (kernelVirtBase + (physical - physical % pageSize))
        (physical - physical % pageSize) .mmio n ∧
        ∀ address, r = .ok address → address = kernelVirtBase + physical ∧
          n = mmioPages physical length := by
  unfold Machine.mapMmio at hmap
  dsimp only at hmap
  split_ifs at hmap with hoverflow hround
  · obtain ⟨rfl, rfl⟩ := Prod.mk.inj (Option.some.inj hmap)
    exact ⟨0, Nat.zero_le _, .refl h _ _ _, fun address hok => by contradiction⟩
  · obtain ⟨⟨r₁, s₁⟩, hfill, hrest⟩ := Option.map_eq_some_iff.mp hmap
    obtain ⟨rfl, rfl⟩ := Prod.mk.inj hrest
    have hpages : (physical + max length 1 + pageSize - 1) / pageSize -
        (physical - physical % pageSize) / pageSize =
        mmioPages physical length := by
      unfold mmioPages pageSize
      omega
    rw [hpages] at hfill
    obtain ⟨n, hn, hmapped, hall⟩ := h.fillPages hfill
    refine ⟨n, hn, hmapped, fun address hok => ?_⟩
    cases r₁ with
    | error e => contradiction
    | ok _ => exact ⟨(Except.ok.inj hok).symm, hall rfl⟩

end SaeOS.KernelTables
