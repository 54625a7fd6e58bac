import Mathlib.Data.Nat.Log
import Mathlib.Order.Bounds.Basic
import SaeOS.Lib.Checked
import SaeOS.Mm.BuddyCanonical

/-!
# DMA buffers

`mm/dma.rs`: the block that a device's buffer is put in. A block starts at a multiple of its size, so it is
aligned to every smaller power of two, and a buffer in it crosses no multiple of a power of two unless it is
longer.
-/

namespace SaeOS.Dma

open Checked (addWord rejectIf)

open Buddy (trailingZeros)

def pageSize : ℕ := 4096

/-- The largest block has `2 ^ maxOrder` pages. -/
def maxOrder : ℕ := 18

/-- What a device can reach. -/
structure DmaConstraints where
  /-- The buffer must end at or below this physical address. -/
  limit : UInt64
  /-- Required alignment of the start (a power of two). -/
  alignment : UInt64
  /-- The buffer must not cross a multiple of this (a power of two). -/
  boundary : Option UInt64

inductive DmaError where
  /-- Zero length, or more than the largest block. -/
  | tooLarge
  /-- The buffer is larger than the boundary it must not cross. -/
  | crossesBoundary
  /-- A limit of 0, or an alignment or boundary that is not a power of two. -/
  | badConstraints
  | outOfMemory
deriving DecidableEq

def isPowerOfTwo (n : UInt64) : Bool :=
  n.toNat = 2 ^ Nat.log 2 n.toNat

def divCeil (a b : ℕ) : ℕ :=
  (a + (b - 1)) / b

/-- `next_power_of_two`, which panics where there is none in 64 bits. -/
def nextPowerOfTwo (n : ℕ) : Checked DmaError ℕ :=
  if 2 ^ Nat.clog 2 n < 2 ^ 64 then pure (2 ^ Nat.clog 2 n) else Checked.panics

/-- The buddy order for a buffer. -/
def plan (len : UInt64) (constraints : DmaConstraints) : Checked DmaError ℕ := do
  rejectIf .badConstraints (constraints.limit = 0 ∨ ¬ isPowerOfTwo constraints.alignment ∨
    constraints.boundary.any fun boundary => ¬ isPowerOfTwo boundary)
  rejectIf .tooLarge (len = 0)
  let bytes := max (max len.toNat constraints.alignment.toNat) pageSize
  let pages ← nextPowerOfTwo (divCeil bytes pageSize)
  let order := trailingZeros 64 pages
  rejectIf .tooLarge (order > maxOrder)
  rejectIf .crossesBoundary (constraints.boundary.any fun boundary => len > boundary)
  return order

/-- Whether `start..start + len` stays within one `boundary` window. -/
def withinBoundary (start len boundary : ℕ) : Checked DmaError Bool :=
  if len = 0 then pure true
  else do
    let stop ← addWord start len
    return start / boundary = (stop - 1) / boundary

/-! ## Blocks -/

def blockSize (order : ℕ) : ℕ :=
  2 ^ order * pageSize

variable {len : UInt64} {constraints : DmaConstraints} {order : ℕ}

/-- A block of this order is aligned and long enough, wherever it starts. -/
def Suits (len : UInt64) (constraints : DmaConstraints) (order : ℕ) : Prop :=
  ∀ start, blockSize order ∣ start → constraints.alignment.toNat ∣ start ∧ len.toNat ≤ blockSize order

/-- What the first check of `plan` lets through. -/
structure DmaConstraints.WellFormed (constraints : DmaConstraints) : Prop where
  limit : constraints.limit ≠ 0
  alignment : ∃ k, constraints.alignment.toNat = 2 ^ k
  boundary : ∀ boundary ∈ constraints.boundary, ∃ k, boundary.toNat = 2 ^ k

/-- The order of the smallest block of enough pages. -/
def orderFor (len : UInt64) (constraints : DmaConstraints) : ℕ :=
  Nat.clog 2 (divCeil (max (max len.toNat constraints.alignment.toNat) pageSize) pageSize)

theorem isPowerOfTwo_iff (n : UInt64) : isPowerOfTwo n = true ↔ ∃ k, n.toNat = 2 ^ k := by
  rw [isPowerOfTwo, decide_eq_true_iff]
  constructor
  · exact fun h => ⟨_, h⟩
  · rintro ⟨k, hk⟩
    rw [hk, Nat.log_pow Nat.one_lt_two]

theorem blockSize_eq (order : ℕ) : blockSize order = 2 ^ (order + 12) := by
  rw [blockSize, pow_add]
  rfl

/-- A block is large enough from the planned order on. -/
theorem orderFor_le_iff : orderFor len constraints ≤ order ↔
    len.toNat ≤ blockSize order ∧ constraints.alignment.toNat ≤ blockSize order := by
  have hpage : pageSize ≤ blockSize order := Nat.le_mul_of_pos_left _ (Nat.two_pow_pos order)
  have hceil (bytes pages : ℕ) : divCeil bytes pageSize ≤ pages ↔ bytes ≤ pages * pageSize := by
    unfold divCeil pageSize
    omega
  rw [orderFor, Nat.clog_le_iff_le_pow Nat.one_lt_two, hceil]
  change max (max _ _) _ ≤ blockSize order ↔ _
  rw [max_le_iff, max_le_iff, and_iff_left hpage]

/-- For a power of two, the blocks of an order are aligned when they are as long. -/
theorem suits_iff {k : ℕ} (hk : constraints.alignment.toNat = 2 ^ k) :
    Suits len constraints order ↔ orderFor len constraints ≤ order := by
  rw [orderFor_le_iff]
  constructor
  · intro h
    obtain ⟨halignment, hlen⟩ := h (blockSize order) dvd_rfl
    refine ⟨hlen, Nat.le_of_dvd ?_ halignment⟩
    rw [blockSize_eq]
    exact Nat.two_pow_pos _
  · rintro ⟨hlen, halignment⟩ start hstart
    refine ⟨dvd_trans ?_ hstart, hlen⟩
    rw [hk, blockSize_eq] at halignment ⊢
    exact pow_dvd_pow 2 ((Nat.pow_le_pow_iff_right Nat.one_lt_two).mp halignment)

theorem orderFor_lt (len : UInt64) (constraints : DmaConstraints) : orderFor len constraints ≤ 52 := by
  have hlen := len.toNat_lt
  have halignment := constraints.alignment.toNat_lt
  rw [orderFor_le_iff, blockSize_eq]
  exact ⟨hlen.le, halignment.le⟩

theorem trailingZeros_two_pow {k : ℕ} (h : k ≤ 64) : trailingZeros 64 (2 ^ k) = k := by
  refine le_antisymm ?_ (Buddy.le_trailingZeros h dvd_rfl)
  obtain ⟨-, hdvd⟩ := Buddy.trailingZeros_spec 64 (2 ^ k)
  exact (Nat.pow_dvd_pow_iff_le_right (by decide)).mp hdvd

/-! ## Windows -/

/-- A buffer at the start of a block stays in one window of a power of two that it is no longer than. -/
theorem within_window {start boundary k : ℕ} (hboundary : boundary = 2 ^ k) (hlen : 0 < len.toNat)
    (hle : len.toNat ≤ boundary) (hblock : len.toNat ≤ blockSize order) (hstart : blockSize order ∣ start) :
    start / boundary = (start + len.toNat - 1) / boundary := by
  have hpos : 0 < boundary := by omega
  -- the smaller one of the block and the boundary divides the other
  obtain hdvd | hdvd : boundary ∣ start ∨ blockSize order ∣ boundary := by
    rw [blockSize_eq] at hstart ⊢
    rw [hboundary]
    obtain hk | hk := Nat.le_total k (order + 12)
    · exact .inl ((pow_dvd_pow 2 hk).trans hstart)
    · exact .inr (pow_dvd_pow 2 hk)
  · obtain ⟨window, rfl⟩ := hdvd
    rw [Nat.mul_div_cancel_left _ hpos, Nat.add_sub_assoc hlen, Nat.mul_add_div hpos,
      Nat.div_eq_of_lt (by omega), Nat.add_zero]
  · obtain ⟨blocks, rfl⟩ := hdvd
    obtain ⟨slot, rfl⟩ := hstart
    have hsize : 0 < blockSize order := Nat.pos_of_mul_pos_right hpos
    rw [Nat.mul_div_mul_left _ _ hsize, ← Nat.div_div_eq_div_mul, Nat.add_sub_assoc hlen, Nat.mul_add_div hsize,
      Nat.div_eq_of_lt (show len.toNat - 1 < blockSize order by omega), Nat.add_zero]

/-- A longer one crosses, wherever it starts. -/
theorem crosses_window {start len boundary : ℕ} (hpos : 0 < boundary) (h : boundary < len) :
    start / boundary ≠ (start + len - 1) / boundary := by
  have hnext : (start + boundary) / boundary ≤ (start + len - 1) / boundary :=
    Nat.div_le_div_right (by omega)
  rw [Nat.add_div_right _ hpos] at hnext
  omega

/-! ## Plans -/

theorem wellFormed_iff (constraints : DmaConstraints) : constraints.WellFormed ↔
    ¬ (constraints.limit = 0 ∨ ¬ isPowerOfTwo constraints.alignment ∨
      constraints.boundary.any fun boundary => ¬ isPowerOfTwo boundary) := by
  have hboundary : (∀ boundary ∈ constraints.boundary, ∃ k, boundary.toNat = 2 ^ k) ↔
      ¬ (constraints.boundary.any fun boundary => ¬ isPowerOfTwo boundary) = true := by
    cases constraints.boundary with
    | none => simp
    | some boundary =>
      rw [Option.any_some, decide_eq_true_iff, not_not, isPowerOfTwo_iff]
      exact ⟨fun h => h boundary rfl, fun h other hother => Option.some.inj hother ▸ h⟩
  rw [not_or, not_or, not_not, isPowerOfTwo_iff, ← hboundary]
  exact ⟨fun h => ⟨h.limit, h.alignment, h.boundary⟩, fun h => ⟨h.1, h.2.1, h.2.2⟩⟩

instance (constraints : DmaConstraints) : Decidable constraints.WellFormed :=
  decidable_of_iff' _ (wellFormed_iff constraints)

/-- What `plan` computes. -/
def planned (len : UInt64) (constraints : DmaConstraints) : Except DmaError ℕ :=
  if ¬ constraints.WellFormed then .error .badConstraints
  else if len = 0 ∨ maxOrder < orderFor len constraints then .error .tooLarge
  else if ∃ boundary ∈ constraints.boundary, boundary < len then .error .crossesBoundary
  else .ok (orderFor len constraints)

/-- No sum or power in it leaves the 64 bits. -/
theorem plan_eq (len : UInt64) (constraints : DmaConstraints) :
    plan len constraints = ExceptT.mk (some (planned len constraints)) := by
  have hpow : 2 ^ orderFor len constraints < 2 ^ 64 :=
    Nat.pow_lt_pow_right (by decide) ((orderFor_lt len constraints).trans_lt (by decide))
  have hzeros := trailingZeros_two_pow ((orderFor_lt len constraints).trans (show 52 ≤ 64 by decide))
  have hpages : nextPowerOfTwo (divCeil (max (max len.toNat constraints.alignment.toNat) pageSize) pageSize) =
      pure (2 ^ orderFor len constraints) := if_pos hpow
  have hboundary : (constraints.boundary.any fun boundary => len > boundary) = true ↔
      ∃ boundary ∈ constraints.boundary, boundary < len := by
    cases constraints.boundary with
    | none => simp
    | some boundary => simp
  unfold plan planned
  by_cases hformed : constraints.WellFormed
  · rw [rejectIf, if_neg ((wellFormed_iff _).mp hformed), if_neg (not_not.mpr hformed), pure_bind]
    by_cases hzero : len = 0
    · rw [rejectIf, if_pos hzero, if_pos (.inl hzero)]
      rfl
    · rw [rejectIf, if_neg hzero, pure_bind]
      dsimp only
      rw [hpages, pure_bind, hzeros]
      by_cases hlarge : maxOrder < orderFor len constraints
      · rw [rejectIf, if_pos hlarge, if_pos (.inr hlarge)]
        rfl
      · rw [rejectIf, if_neg hlarge, if_neg (not_or.mpr ⟨hzero, hlarge⟩), pure_bind]
        by_cases hcrosses : ∃ boundary ∈ constraints.boundary, boundary < len
        · rw [rejectIf, if_pos (hboundary.mpr hcrosses), if_pos hcrosses]
          rfl
        · rw [rejectIf, if_neg (hboundary.not.mpr hcrosses), if_neg hcrosses]
          rfl
  · rw [rejectIf, if_pos (not_not.mp ((wellFormed_iff _).not.mp hformed)), if_pos hformed]
    rfl

/-- **A planned block does.** `plan` does not panic. The block it plans has the alignment, holds the buffer and
keeps it in one window of the boundary, wherever it starts, and no smaller block does as much. For constraints
that are well formed and a buffer that some block can hold, it refuses a boundary exactly if no start that is
a multiple of the block's size keeps the buffer in one window. -/
theorem plan_blocks :
    (∀ len constraints, ∃ result, (plan len constraints).run = some result) ∧
    (∀ len constraints order, (plan len constraints).run = some (.ok order) →
      (∀ start, blockSize order ∣ start → constraints.alignment.toNat ∣ start ∧ len.toNat ≤ blockSize order ∧
        ∀ boundary ∈ constraints.boundary,
          start / boundary.toNat = (start + len.toNat - 1) / boundary.toNat ∧
          (start + len.toNat < 2 ^ 64 →
            (withinBoundary start len.toNat boundary.toNat).run = some (.ok true))) ∧
      ∀ smaller < order, ¬ Suits len constraints smaller) ∧
    ∀ len constraints, (plan len constraints).run = some (.error .crossesBoundary) ↔
      constraints.WellFormed ∧ len ≠ 0 ∧ ∃ order ≤ maxOrder, IsLeast {order | Suits len constraints order} order ∧
        ∃ boundary ∈ constraints.boundary, ∀ start, blockSize order ∣ start →
          start / boundary.toNat ≠ (start + len.toNat - 1) / boundary.toNat := by
  refine ⟨fun len constraints => ⟨_, congrArg ExceptT.run (plan_eq len constraints)⟩,
    fun len constraints order h => ?_, fun len constraints => ?_⟩
  · rw [plan_eq] at h
    have hplanned := Option.some.inj h
    unfold planned at hplanned
    split_ifs at hplanned with hformed hlarge hcrosses
    obtain rfl := Except.ok.inj hplanned
    obtain ⟨k, hk⟩ := hformed.alignment
    have hlen : 0 < len.toNat := Nat.pos_of_ne_zero fun h => (not_or.mp hlarge).1 (UInt64.toNat_inj.mp h)
    refine ⟨fun start hstart => ?_, fun smaller hsmaller hsuits => ?_⟩
    · obtain ⟨halignment, hholds⟩ := (suits_iff hk).mpr le_rfl start hstart
      refine ⟨halignment, hholds, fun boundary hboundary => ?_⟩
      obtain ⟨j, hj⟩ := hformed.boundary boundary hboundary
      have hle : len.toNat ≤ boundary.toNat := not_lt.mp fun h => hcrosses ⟨boundary, hboundary, h⟩
      have hwindow := within_window hj hlen hle hholds hstart
      refine ⟨hwindow, fun hbound => ?_⟩
      rw [withinBoundary, if_neg hlen.ne', addWord, if_pos hbound, pure_bind, decide_eq_true hwindow]
      rfl
    · exact absurd ((suits_iff hk).mp hsuits) (by omega)
  · rw [plan_eq]
    have hiff : some (planned len constraints) = some (.error .crossesBoundary) ↔
        constraints.WellFormed ∧ (len ≠ 0 ∧ orderFor len constraints ≤ maxOrder) ∧
          ∃ boundary ∈ constraints.boundary, boundary < len := by
      rw [Option.some_inj]
      unfold planned
      split_ifs with hformed hlarge hcrosses
      · exact iff_of_false (by simp) fun h => hlarge.elim h.2.1.1 (not_lt.mpr h.2.1.2)
      · exact iff_of_true rfl ⟨hformed, ⟨(not_or.mp hlarge).1, not_lt.mp (not_or.mp hlarge).2⟩, hcrosses⟩
      · exact iff_of_false (by simp) fun h => hcrosses h.2.2
      · exact iff_of_false (by simp) fun h => hformed h.1
    refine hiff.trans (and_congr_right fun hformed => ?_)
    obtain ⟨k, hk⟩ := hformed.alignment
    rw [and_assoc]
    refine and_congr_right fun hzero => ?_
    have hlen : 0 < len.toNat := Nat.pos_of_ne_zero fun h => hzero (UInt64.toNat_inj.mp h)
    have hleast : IsLeast {order | Suits len constraints order} (orderFor len constraints) :=
      ⟨(suits_iff hk).mpr le_rfl, fun order hsuits => (suits_iff hk).mp hsuits⟩
    have hcross (boundary : UInt64) (hboundary : boundary ∈ constraints.boundary) : boundary < len ↔
        ∀ start, blockSize (orderFor len constraints) ∣ start →
          start / boundary.toNat ≠ (start + len.toNat - 1) / boundary.toNat := by
      obtain ⟨j, hj⟩ := hformed.boundary boundary hboundary
      constructor
      · intro hlt start _
        exact crosses_window (hj ▸ Nat.two_pow_pos j) hlt
      · intro hall
        by_contra hnot
        -- the block at 0 would do
        exact hall 0 (dvd_zero _) (within_window hj hlen (not_lt.mp hnot)
          ((suits_iff hk).mpr le_rfl 0 (dvd_zero _)).2 (dvd_zero _))
    constructor
    · rintro ⟨hle, boundary, hboundary, hlt⟩
      exact ⟨_, hle, hleast, boundary, hboundary, (hcross boundary hboundary).mp hlt⟩
    · rintro ⟨order, hle, horder, boundary, hboundary, hall⟩
      obtain rfl := hleast.unique horder
      exact ⟨hle, boundary, hboundary, (hcross boundary hboundary).mpr hall⟩

/-- Three pages below a boundary of sixteen, at any multiple of four. -/
theorem plan_blocks_threePages : ∀ start, blockSize 2 ∣ start →
    start / 65536 = (start + 12288 - 1) / 65536 := by
  have hplan : (plan 12288 ⟨0x100000000, 4096, some 65536⟩).run = some (.ok 2) := by
    decide +kernel
  exact fun start hstart => ((plan_blocks.2.1 _ _ _ hplan).1 start hstart).2.2 65536 rfl |>.1

/-- A buffer of two GiB crosses every boundary of 64 KiB, and is refused for its length; at the end of the 64-bit
addresses the check of a window overflows. -/
theorem plan_tooLarge :
    (¬ ∀ len constraints, (plan len constraints).run = some (.error .crossesBoundary) ↔
      ∃ order, IsLeast {order | Suits len constraints order} order ∧
        ∃ boundary ∈ constraints.boundary, ∀ start, blockSize order ∣ start →
          start / boundary.toNat ≠ (start + len.toNat - 1) / boundary.toNat) ∧
    ¬ ∀ len constraints order, (plan len constraints).run = some (.ok order) →
      ∀ start, blockSize order ∣ start → start + blockSize order ≤ 2 ^ 64 →
        ∀ boundary ∈ constraints.boundary,
          (withinBoundary start len.toNat boundary.toNat).run = some (.ok true) := by
  constructor
  · intro hall
    let constraints : DmaConstraints := ⟨0x100000000, 4096, some 65536⟩
    have halignment : constraints.alignment.toNat = 2 ^ 12 := by decide
    have hleast : IsLeast {order | Suits 0x80000000 constraints order} (orderFor 0x80000000 constraints) :=
      ⟨(suits_iff halignment).mpr le_rfl, fun order hsuits => (suits_iff halignment).mp hsuits⟩
    have hcrosses := (hall 0x80000000 constraints).mpr ⟨_, hleast, 65536, rfl, fun start _ =>
      crosses_window (by decide) (by decide)⟩
    have hplan : (plan 0x80000000 constraints).run = some (.error .tooLarge) := by
      decide +kernel
    rw [hplan] at hcrosses
    cases hcrosses
  · intro hall
    have hplan : (plan 4096 ⟨0x100000000, 4096, some 4096⟩).run = some (.ok 0) := by
      decide +kernel
    have hwithin := hall _ _ _ hplan 0xfffffffffffff000 (by decide) (by decide) 4096 rfl
    have hpanics : (withinBoundary 0xfffffffffffff000 4096 4096).run = none := by
      decide +kernel
    exact absurd (hpanics.symm.trans hwithin) (by simp)

end SaeOS.Dma
