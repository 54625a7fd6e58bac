import Mathlib.Data.Nat.Bitwise
import SaeOS.Lib.TableTree

/-!
# Entries of the kernel page tables

The words that `mm/paging.rs` stores in page tables, and what the processor reads in them. A leaf
may cover 1 GiB, 2 MiB or 4 KiB; the address bits differ, and the PAT bit of a huge leaf lies where
the smallest address bit of a small one does. `inherited_leaf_flags` is what the pieces of a leaf
that is split take over from it.
-/

namespace SaeOS.KernelTables

open TableTree

/-- A `u64` that is read bit by bit. -/
abbrev Word := BitVec 64

/-- `PRESENT`. -/
def present : Word := 1

/-- `WRITABLE`. -/
def writable : Word := 2

/-- `USER`. -/
def user : Word := 4

/-- `PWT`. -/
def pwt : Word := 8

/-- `PCD`. -/
def pcd : Word := 16

/-- `HUGE`. -/
def huge : Word := 128

/-- `NO_EXECUTE`. -/
def noExecute : Word := 0x8000000000000000

/-- `PAT`, in a huge leaf. -/
def pat : Word := 4096

/-- `PAT_4K`, in a small one. -/
def pat4K : Word := 128

/-- `PHYS_MASK_4K`, which is also `ADDRESS_MASK`. -/
def physMask4K : Word := 0x000ffffffffff000

/-- `PHYS_MASK_2M`. -/
def physMask2M : Word := 0x000fffffffe00000

/-- `PHYS_MASK_1G`. -/
def physMask1G : Word := 0x000fffffc0000000

/-- `LEAF_ATTRIBUTES`. -/
def leafAttributes : Word := present ||| writable ||| user ||| pwt ||| pcd ||| noExecute

/-- `PAGE_SIZE`. -/
def pageSize : ℕ := 4096

/-- `TWO_MIB`. -/
def twoMib : ℕ := 2 ^ 21

/-- `GIGABYTE`. -/
def gigabyte : ℕ := 2 ^ 30

/-- Whether a bit is set. -/
def has (entry bit : Word) : Bool :=
  entry &&& bit != 0#64

/-- `pat_1g_to_2m`. -/
def pat1GTo2M (entry : Word) : Word :=
  entry &&& pat

/-- `pat_2m_to_4k`. -/
def pat2MTo4K (entry : Word) : Word :=
  if has entry pat then pat4K else 0#64

/-- `inherited_leaf_flags`. -/
def inheritedLeafFlags (entry : Word) (to4K : Bool) : Word :=
  (entry &&& leafAttributes) ||| if to4K then pat2MTo4K entry else pat1GTo2M entry

/-- The entries that replace a leaf of 1 GiB. -/
def pieces1G (entry : Word) (i : ℕ) : Word :=
  ((entry &&& physMask1G) + BitVec.ofNat 64 (i * twoMib)) |||
    inheritedLeafFlags entry false ||| huge

/-- The entries that replace a leaf of 2 MiB. -/
def pieces2M (entry : Word) (i : ℕ) : Word :=
  ((entry &&& physMask2M) + BitVec.ofNat 64 (i * pageSize)) ||| inheritedLeafFlags entry true

/-! ## What an entry means -/

/-- Where a page is, with the permissions and cache attributes of its leaf. -/
structure Page where
  physical : ℕ
  attributes : Word
  pat : Bool
  deriving DecidableEq

/-- The page of 4 KiB that a leaf maps, behind the indices that it leaves open. -/
def leafPage (entry mask patBit : Word) (offset : ℕ) : Page :=
  ⟨(entry &&& mask).toNat + offset, entry &&& leafAttributes, has entry patBit⟩

/-- What the processor reads in an entry at each depth: 0 is the PML4, 3 the page table. -/
def decode (depth : ℕ) (entry : Word) : Node Word Page :=
  if has entry present = false then .absent
  else if 3 ≤ depth then .leaf fun _ => leafPage entry physMask4K pat4K 0
  else if 0 < depth ∧ has entry huge = true then
    .leaf fun p =>
      if depth = 1 then leafPage entry physMask1G pat (p 2 * twoMib + p 3 * pageSize)
      else leafPage entry physMask2M pat (p 3 * pageSize)
  else .link (entry &&& physMask4K)

theorem decode_eq_link {d : ℕ} {entry table : Word} : decode d entry = .link table ↔
    has entry present = true ∧ d < 3 ∧ ¬(0 < d ∧ has entry huge = true) ∧
      entry &&& physMask4K = table := by
  unfold decode
  split_ifs with hpresent hdepth hhuge
  · simp [hpresent]
  · simp [hdepth]
  · simp [hhuge]
  · simp [hpresent, not_le.mp hdepth, hhuge]

theorem depth_lt_of_link {d : ℕ} {entry table : Word} (h : decode d entry = .link table) :
    d + 1 < 4 := by
  have := (decode_eq_link.mp h).2.1
  omega

/-- Four levels of tables. -/
def layout : Layout Word Word Page :=
  ⟨4, decode, depth_lt_of_link⟩

@[simp]
theorem layout_decode (d : ℕ) (entry : Word) : layout.decode d entry = decode d entry := rfl

section Bits

variable {entry a b bit mask : Word} {d i k pa : ℕ}

theorem has_or : has (a ||| b) bit = (has a bit || has b bit) := by
  unfold has
  rw [BitVec.and_or_distrib_right]
  rw [Bool.eq_iff_iff, Bool.or_eq_true, bne_iff_ne, bne_iff_ne, bne_iff_ne, ne_eq,
    BitVec.or_eq_zero_iff]
  exact not_and_or

theorem has_of_and_eq (h : a &&& mask = a) (hbit : mask &&& bit = 0#64) : has a bit = false := by
  unfold has
  rw [← h, BitVec.and_assoc, hbit, BitVec.and_zero]
  rfl

theorem decode_of_not_present (h : has entry present = false) : decode d entry = .absent :=
  if_pos h

/-- The bits of an aligned address lie in the mask of its alignment. -/
theorem ofNat_and_mask (hmask : ∀ i < 64, mask.getLsbD i = decide (k ≤ i ∧ i < 52))
    (hdvd : 2 ^ k ∣ pa)
    (hlt : pa < 2 ^ 52) : BitVec.ofNat 64 pa &&& mask = BitVec.ofNat 64 pa := by
  refine BitVec.eq_of_getLsbD_eq fun i hi => ?_
  rw [BitVec.getLsbD_and, hmask i hi, BitVec.getLsbD_ofNat]
  by_cases hlow : i < k
  · obtain ⟨c, rfl⟩ := hdvd
    simp [Nat.testBit_two_pow_mul, hlow]
  · by_cases hhigh : i < 52
    · simp [not_lt.mp hlow, hhigh]
    · have hzero : pa.testBit i = false :=
        Nat.testBit_lt_two_pow (hlt.trans_le (Nat.pow_le_pow_right Nat.two_pos (not_lt.mp hhigh)))
      simp [hzero]

theorem physMask4K_bits : ∀ i < 64, physMask4K.getLsbD i = decide (12 ≤ i ∧ i < 52) := by decide

theorem physMask2M_bits : ∀ i < 64, physMask2M.getLsbD i = decide (21 ≤ i ∧ i < 52) := by decide

theorem physMask1G_bits : ∀ i < 64, physMask1G.getLsbD i = decide (30 ≤ i ∧ i < 52) := by decide

/-- Offsets of the pieces stay below the address of the leaf, and within the mask of the pieces. -/
theorem offset2M_bits (h : i < 512) : BitVec.ofNat 64 (i * twoMib) &&& physMask1G = 0#64 ∧
    BitVec.ofNat 64 (i * twoMib) &&& physMask2M = BitVec.ofNat 64 (i * twoMib) := by
  have hall : ∀ i < 512, BitVec.ofNat 64 (i * twoMib) &&& physMask1G = 0#64 ∧
    BitVec.ofNat 64 (i * twoMib) &&& physMask2M = BitVec.ofNat 64 (i * twoMib) := by decide +kernel
  exact hall i h

theorem offset4K_bits (h : i < 512) : BitVec.ofNat 64 (i * pageSize) &&& physMask2M = 0#64 ∧
    BitVec.ofNat 64 (i * pageSize) &&& physMask4K = BitVec.ofNat 64 (i * pageSize) := by
  have hall : ∀ i < 512, BitVec.ofNat 64 (i * pageSize) &&& physMask2M = 0#64 ∧
    BitVec.ofNat 64 (i * pageSize) &&& physMask4K =
      BitVec.ofNat 64 (i * pageSize) := by decide +kernel
  exact hall i h

/-- The address of a piece. -/
theorem base_add (entry fine : Word) {coarse offset : Word} (hcoarse : coarse &&& fine = coarse)
    (hdisjoint : offset &&& coarse = 0#64) (hoffset : offset &&& fine = offset) :
    ((entry &&& coarse) + offset) &&& fine = (entry &&& coarse) + offset ∧
      (entry &&& coarse) + offset = (entry &&& coarse) ||| offset := by
  have hadd : (entry &&& coarse) + offset = (entry &&& coarse) ||| offset := by
    refine BitVec.add_eq_or_of_and_eq_zero _ _ ?_
    rw [BitVec.and_assoc, BitVec.and_comm coarse, hdisjoint, BitVec.and_zero]
  refine ⟨?_, hadd⟩
  rw [hadd, BitVec.and_or_distrib_right, BitVec.and_assoc, hcoarse, hoffset]

theorem and_eq_zero_of (h : a &&& mask = a) (hbit : mask &&& bit = 0#64) : a &&& bit = 0#64 := by
  rw [← h, BitVec.and_assoc, hbit, BitVec.and_zero]

theorem has_and (h : mask &&& bit = bit) : has (a &&& mask) bit = has a bit := by
  unfold has
  rw [BitVec.and_assoc, h]

theorem has_and_of_disjoint (h : mask &&& bit = 0#64) : has (a &&& mask) bit = false := by
  unfold has
  rw [BitVec.and_assoc, h, BitVec.and_zero]
  rfl

/-- The address of a piece as a number. -/
theorem toNat_base_add {offset : ℕ} (hmask : mask.toNat < 2 ^ 52) (h : offset < 2 ^ 52) :
    ((entry &&& mask) + BitVec.ofNat 64 offset).toNat = (entry &&& mask).toNat + offset := by
  have hle : (entry &&& mask).toNat ≤ mask.toNat := by
    rw [BitVec.toNat_and]
    exact Nat.and_le_right
  rw [BitVec.toNat_add, BitVec.toNat_ofNat, Nat.mod_eq_of_lt (a := offset) (by omega),
    Nat.mod_eq_of_lt (by omega)]

theorem inherited_attributes (to4K : Bool) :
    inheritedLeafFlags entry to4K &&& leafAttributes = entry &&& leafAttributes := by
  have hpat : pat &&& leafAttributes = 0#64 := by decide
  have hpat4K : pat4K &&& leafAttributes = 0#64 := by decide
  unfold inheritedLeafFlags pat2MTo4K pat1GTo2M
  rw [BitVec.and_or_distrib_right, BitVec.and_assoc, BitVec.and_self]
  cases to4K with
  | false =>
    rw [if_neg Bool.false_ne_true, BitVec.and_assoc, hpat, BitVec.and_zero, BitVec.or_zero]
  | true =>
    rw [if_pos rfl]
    split_ifs
    · rw [hpat4K, BitVec.or_zero]
    · rw [BitVec.zero_and, BitVec.or_zero]

theorem inherited_address (to4K : Bool) (h : leafAttributes &&& mask = 0#64)
    (hpat : pat &&& mask = 0#64)
    (hpat4K : pat4K &&& mask = 0#64) : inheritedLeafFlags entry to4K &&& mask = 0#64 := by
  unfold inheritedLeafFlags pat2MTo4K pat1GTo2M
  rw [BitVec.and_or_distrib_right, BitVec.and_assoc, h, BitVec.and_zero, BitVec.zero_or]
  split_ifs
  · exact hpat4K
  · rw [BitVec.zero_and]
  · rw [BitVec.and_assoc, hpat, BitVec.and_zero]

theorem has_inherited_present (to4K : Bool) :
    has (inheritedLeafFlags entry to4K) present = has entry present := by
  have hsub : leafAttributes &&& present = present := by decide
  rw [← has_and (a := inheritedLeafFlags entry to4K) hsub, inherited_attributes, has_and hsub]

/-- **A piece of a 1 GiB leaf** maps its pages as the leaf did. -/
theorem decode_pieces1G {p : ℕ → ℕ} (hpresent : has entry present = true) (hp : p 2 < 512) :
    ∃ value, decode 2 (pieces1G entry (p 2)) = .leaf value ∧
      value p = leafPage entry physMask1G pat (p 2 * twoMib + p 3 * pageSize) := by
  obtain ⟨hlow, hfine⟩ := offset2M_bits hp
  obtain ⟨hbase, -⟩ := base_add entry physMask2M
    (show physMask1G &&& physMask2M = physMask1G by decide)
    hlow hfine
  have hhuge : has (pieces1G entry (p 2)) huge = true := by
    rw [pieces1G, has_or, show has huge huge = true by decide, Bool.or_true]
  have hthere : has (pieces1G entry (p 2)) present = true := by
    rw [pieces1G, has_or, has_or, has_inherited_present, hpresent, Bool.or_true, Bool.true_or]
  have haddress : pieces1G entry (p 2) &&& physMask2M =
      (entry &&& physMask1G) + BitVec.ofNat 64 (p 2 * twoMib) := by
    rw [pieces1G, BitVec.and_or_distrib_right, BitVec.and_or_distrib_right, hbase,
      inherited_address false (by decide) (by decide) (by decide),
        show huge &&& physMask2M = 0#64 by decide,
      BitVec.or_zero, BitVec.or_zero]
  have hattributes : pieces1G entry (p 2) &&& leafAttributes = entry &&& leafAttributes := by
    rw [pieces1G, BitVec.and_or_distrib_right, BitVec.and_or_distrib_right,
      and_eq_zero_of hbase (by decide),
      inherited_attributes, show huge &&& leafAttributes = 0#64 by decide, BitVec.zero_or,
        BitVec.or_zero]
  have hpat : has (pieces1G entry (p 2)) pat = has entry pat := by
    rw [pieces1G, has_or, has_or, has_of_and_eq hbase (by decide),
      show has huge pat = false by decide, Bool.or_false,
      Bool.false_or, inheritedLeafFlags, has_or, has_and_of_disjoint (by decide), Bool.false_or,
      if_neg Bool.false_ne_true, pat1GTo2M, has_and (by decide)]
  refine ⟨fun p' => leafPage (pieces1G entry (p 2)) physMask2M pat (p' 3 * pageSize), ?_, ?_⟩
  · simp [decode, hthere, hhuge]
  · simp only [leafPage, haddress, hattributes, hpat, Page.mk.injEq, and_true]
    rw [toNat_base_add (by decide) (by unfold twoMib; omega), Nat.add_assoc]

/-- **A piece of a 2 MiB leaf** maps its page as the leaf did. -/
theorem decode_pieces2M {p : ℕ → ℕ} (hpresent : has entry present = true) (hp : p 3 < 512) :
    ∃ value, decode 3 (pieces2M entry (p 3)) = .leaf value ∧
      value p = leafPage entry physMask2M pat (p 3 * pageSize) := by
  obtain ⟨hlow, hfine⟩ := offset4K_bits hp
  obtain ⟨hbase, -⟩ := base_add entry physMask4K
    (show physMask2M &&& physMask4K = physMask2M by decide)
    hlow hfine
  have hthere : has (pieces2M entry (p 3)) present = true := by
    rw [pieces2M, has_or, has_inherited_present, hpresent, Bool.or_true]
  have hzero : pat2MTo4K entry &&& physMask4K = 0#64 := by
    unfold pat2MTo4K
    split_ifs
    · decide
    · rw [BitVec.zero_and]
  have haddress : pieces2M entry (p 3) &&& physMask4K =
      (entry &&& physMask2M) + BitVec.ofNat 64 (p 3 * pageSize) := by
    rw [pieces2M, BitVec.and_or_distrib_right, hbase, inheritedLeafFlags, if_pos rfl,
      BitVec.and_or_distrib_right,
      hzero, BitVec.and_assoc, show leafAttributes &&& physMask4K = 0#64 by decide, BitVec.and_zero,
        BitVec.or_zero,
      BitVec.or_zero]
  have hattributes : pieces2M entry (p 3) &&& leafAttributes = entry &&& leafAttributes := by
    rw [pieces2M, BitVec.and_or_distrib_right, and_eq_zero_of hbase (by decide),
      inherited_attributes, BitVec.zero_or]
  have hpat : has (pieces2M entry (p 3)) pat4K = has entry pat := by
    rw [pieces2M, has_or, has_of_and_eq hbase (by decide), Bool.false_or,
      inheritedLeafFlags, has_or,
      has_and_of_disjoint (by decide), Bool.false_or, if_pos rfl, pat2MTo4K]
    split_ifs with h
    · rw [h]
      decide
    · rw [Bool.not_eq_true] at h
      rw [h]
      decide
  refine ⟨fun _ => leafPage (pieces2M entry (p 3)) physMask4K pat4K 0, ?_, ?_⟩
  · simp [decode, hthere]
  · simp only [leafPage, haddress, hattributes, hpat, Page.mk.injEq, and_true]
    rw [toNat_base_add (by decide) (by unfold pageSize; omega), Nat.add_zero]

/-- The pieces of a leaf are leaves. -/
theorem decode_pieces1G_ne_link (i : ℕ) (table : Word) :
    decode 2 (pieces1G entry i) ≠ .link table := by
  intro h
  have hhuge : has (pieces1G entry i) huge = true := by
    rw [pieces1G, has_or, show has huge huge = true by decide, Bool.or_true]
  exact (decode_eq_link.mp h).2.2.1 ⟨Nat.two_pos, hhuge⟩

end Bits

end SaeOS.KernelTables
