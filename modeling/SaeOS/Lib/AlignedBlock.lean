import Mathlib.Data.Nat.Bitwise
import Mathlib.Data.Set.Basic
import Mathlib.Data.Set.Lattice
import Mathlib.Order.CompletePartialOrder
import Mathlib.Order.Interval.Set.Basic
import Mathlib.Tactic.Ring

/-!
# Aligned power-of-two blocks

Arithmetic of the blocks a buddy scheme works with: `block f o` is the range of `2 ^ o` numbers
starting at `f`. Two aligned blocks are nested or disjoint; an aligned block and its buddy
`f ^^^ 2 ^ o` are the two halves of one aligned block of the next order.
-/

namespace AlignedBlock

/-- The `2 ^ o` numbers from `f` on. -/
def block (f o : ℕ) : Set ℕ :=
  Set.Ico f (f + 2 ^ o)

/-- Round `f` down to a multiple of `2 ^ o`. -/
def alignDown (f o : ℕ) : ℕ :=
  f / 2 ^ o * 2 ^ o

variable {f g h f' o o' : ℕ}

@[simp]
theorem mem_block : g ∈ block f o ↔ f ≤ g ∧ g < f + 2 ^ o :=
  Iff.rfl

theorem self_mem_block : f ∈ block f o :=
  ⟨le_rfl, Nat.lt_add_of_pos_right (Nat.two_pow_pos o)⟩

@[simp]
theorem block_zero : block f 0 = {f} := by
  ext g
  simp only [mem_block, pow_zero, Set.mem_singleton_iff]
  omega

/-- A block of the next order is two blocks of this one. -/
theorem block_succ : block f (o + 1) = block f o ∪ block (f + 2 ^ o) o := by
  ext g
  simp only [mem_block, Set.mem_union, pow_succ]
  omega

/-- The lower half of a block is the block without its upper half. -/
theorem block_succ_diff_upper : block f (o + 1) \ block (f + 2 ^ o) o = block f o := by
  ext g
  simp only [mem_block, Set.mem_sdiff, pow_succ]
  omega

/-- The upper half of a block is the block without its lower half. -/
theorem block_succ_diff_lower : block f (o + 1) \ block f o = block (f + 2 ^ o) o := by
  ext g
  simp only [mem_block, Set.mem_sdiff, pow_succ]
  omega

theorem dvd_add_half (hf : 2 ^ (o + 1) ∣ f) : 2 ^ o ∣ f ∧ 2 ^ o ∣ f + 2 ^ o := by
  have hdvd : 2 ^ o ∣ f := (pow_dvd_pow 2 (Nat.le_succ o)).trans hf
  exact ⟨hdvd, Nat.dvd_add hdvd dvd_rfl⟩

theorem alignDown_dvd : 2 ^ o ∣ alignDown f o :=
  Nat.dvd_mul_left _ _

/-- An aligned block is found by rounding any of its members down. -/
theorem alignDown_eq (hh : 2 ^ o ∣ h) (hf : f ∈ block h o) : alignDown f o = h := by
  obtain ⟨k, rfl⟩ := hh
  obtain ⟨h1, h2⟩ := hf
  have hdiv : f / 2 ^ o = k := by
    apply Nat.div_eq_of_lt_le
    · rwa [Nat.mul_comm]
    · rw [Nat.add_mul, Nat.one_mul, Nat.mul_comm k]
      exact h2
  rw [alignDown, hdiv, Nat.mul_comm]

theorem mem_block_alignDown : f ∈ block (alignDown f o) o := by
  have hpos : 0 < 2 ^ o := Nat.two_pow_pos o
  have hdiv := Nat.div_add_mod' f (2 ^ o)
  have hmod := Nat.mod_lt f hpos
  constructor <;> simp only [alignDown] <;> omega

/-- Aligned blocks that meet are nested. -/
theorem block_subset (hf : 2 ^ o ∣ f) (hf' : 2 ^ o' ∣ f') (hle : o ≤ o') (hg : g ∈ block f o)
    (hg' : g ∈ block f' o') : block f o ⊆ block f' o' := by
  obtain ⟨a, rfl⟩ := hf
  obtain ⟨b, rfl⟩ := hf'
  obtain ⟨d, rfl⟩ := Nat.exists_eq_add_of_le hle
  have hsplit : 2 ^ (o + d) * b = 2 ^ o * (2 ^ d * b) := by rw [pow_add]; ring
  have hsum : 2 ^ o * (2 ^ d * b) + 2 ^ (o + d) = 2 ^ o * (2 ^ d * b + 2 ^ d) := by
    rw [pow_add]; ring
  have hsucc : 2 ^ o * a + 2 ^ o = 2 ^ o * (a + 1) := by ring
  have hpos : 0 < 2 ^ o := Nat.two_pow_pos o
  simp only [mem_block, hsplit, hsum, hsucc] at hg hg'
  have h1 : 2 ^ d * b < a + 1 := Nat.lt_of_mul_lt_mul_left (lt_of_le_of_lt hg'.1 hg.2)
  have h2 : a < 2 ^ d * b + 2 ^ d := Nat.lt_of_mul_lt_mul_left (lt_of_le_of_lt hg.1 hg'.2)
  have h3 : 2 ^ o * (2 ^ d * b) ≤ 2 ^ o * a := Nat.mul_le_mul_left _ (by omega)
  have h4 : 2 ^ o * (a + 1) ≤ 2 ^ o * (2 ^ d * b + 2 ^ d) := Nat.mul_le_mul_left _ (by omega)
  intro x hx
  simp only [mem_block, hsplit, hsum, hsucc] at hx ⊢
  exact ⟨h3.trans hx.1, lt_of_lt_of_le hx.2 h4⟩

/-! ## Buddies -/

/-- Flipping the lowest bit moves between `2 * j` and `2 * j + 1`. -/
theorem two_mul_xor_one (j : ℕ) : 2 * j ^^^ 1 = 2 * j + 1 := by
  apply Nat.eq_of_testBit_eq
  intro i
  cases i with
  | zero => simp [Nat.testBit_zero]
  | succ i =>
    have hdiv : (2 * j + 1) / 2 = j := by omega
    rw [Nat.testBit_xor, Nat.testBit_succ, Nat.testBit_succ, Nat.testBit_succ, hdiv]
    simp

/-- The buddy of an aligned block lies right above it or right below it. -/
theorem buddy_eq (hf : 2 ^ o ∣ f) :
    (2 ^ (o + 1) ∣ f ∧ f ^^^ 2 ^ o = f + 2 ^ o) ∨
      ∃ l, 2 ^ (o + 1) ∣ l ∧ f = l + 2 ^ o ∧ f ^^^ 2 ^ o = l := by
  obtain ⟨k, rfl⟩ := hf
  have hxor : 2 ^ o * k ^^^ 2 ^ o = 2 ^ o * (k ^^^ 1) := by
    have := Nat.shiftLeft_xor_distrib (a := k) (b := 1) (i := o)
    simp only [Nat.shiftLeft_eq, Nat.one_mul] at this
    rw [Nat.mul_comm, ← this, Nat.mul_comm]
  rcases Nat.even_or_odd' k with ⟨j, rfl | rfl⟩
  · refine Or.inl ⟨⟨j, by ring⟩, ?_⟩
    rw [hxor, two_mul_xor_one]
    ring
  · have hbit : (2 * j + 1) ^^^ 1 = 2 * j := by
      rw [← two_mul_xor_one, Nat.xor_assoc, Nat.xor_self, Nat.xor_zero]
    refine Or.inr ⟨2 ^ o * (2 * j), ⟨j, by ring⟩, by ring, ?_⟩
    rw [hxor, hbit]

/-- A block is the buddy of its buddy, and not its own. -/
theorem buddy_buddy : (f ^^^ 2 ^ o) ^^^ 2 ^ o = f :=
  Nat.xor_xor_cancel_right ..

theorem buddy_ne : f ^^^ 2 ^ o ≠ f := by
  intro heq
  have hzero : f ^^^ (f ^^^ 2 ^ o) = 0 := by rw [heq, Nat.xor_self]
  rw [Nat.xor_xor_cancel_left] at hzero
  exact absurd hzero (Nat.two_pow_pos o).ne'

/-- The two halves of an aligned block are each other's buddies. -/
theorem buddy_of_halves (hf : 2 ^ (o + 1) ∣ f) : f ^^^ 2 ^ o = f + 2 ^ o := by
  rcases buddy_eq (dvd_add_half hf).1 with ⟨-, heq⟩ | ⟨l, hl, rfl, -⟩
  · exact heq
  · -- an upper half is not aligned to the next order
    have hhalf : 2 ^ (o + 1) ∣ 2 ^ o := (Nat.dvd_add_right hl).mp hf
    exact absurd (Nat.le_of_dvd (Nat.two_pow_pos o) hhalf)
      (not_le.mpr (Nat.pow_lt_pow_right (by decide) (Nat.lt_succ_self o)))

/-- A block and its buddy are disjoint aligned blocks that make up a block of the next order. -/
theorem buddy_spec (hf : 2 ^ o ∣ f) :
    2 ^ o ∣ f ^^^ 2 ^ o ∧ 2 ^ (o + 1) ∣ min f (f ^^^ 2 ^ o) ∧
      Disjoint (block f o) (block (f ^^^ 2 ^ o) o) ∧
      block f o ∪ block (f ^^^ 2 ^ o) o = block (min f (f ^^^ 2 ^ o)) (o + 1) := by
  rcases buddy_eq hf with ⟨hdvd, heq⟩ | ⟨l, hdvd, rfl, heq⟩
  · rw [heq, min_eq_left (Nat.le_add_right _ _), block_succ]
    refine ⟨(dvd_add_half hdvd).2, hdvd, ?_, rfl⟩
    rw [Set.disjoint_left]
    simp only [mem_block]
    omega
  · rw [heq, min_eq_right (Nat.le_add_right _ _), block_succ]
    refine ⟨(dvd_add_half hdvd).1, hdvd, ?_, Set.union_comm _ _⟩
    rw [Set.disjoint_left]
    simp only [mem_block]
    omega

end AlignedBlock
