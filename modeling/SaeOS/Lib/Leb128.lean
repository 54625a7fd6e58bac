import Mathlib.Tactic.NormNum

/-!
# Unsigned LEB128

The variable-length encoding of natural numbers: seven bits a byte, the lowest first, with the top
bit set on every byte but the last. `encode_cases` is the view a reader needs: the first byte has the
low bits, and the rest encodes the number shifted down.
-/

namespace Leb128

/-- The bytes of a number. -/
def encode (value : ℕ) : List UInt8 :=
  let byte := UInt8.ofNat (value &&& 0x7f)
  if value >>> 7 = 0 then [byte] else (byte ||| 0x80) :: encode (value >>> 7)
  decreasing_by
    rename_i h
    rw [Nat.shiftRight_eq_div_pow] at h ⊢
    omega

/-- The seven bits that a byte carries. -/
def payload (byte : UInt8) : ℕ :=
  (byte &&& 0x7f).toNat

/-- Another byte follows. -/
def more (byte : UInt8) : Bool :=
  byte &&& 0x80 != 0

theorem payload_last {n : ℕ} (h : n < 128) :
    payload (UInt8.ofNat n) = n ∧ more (UInt8.ofNat n) = false := by
  have hall : ∀ n < 128, payload (UInt8.ofNat n) = n ∧ more (UInt8.ofNat n) = false := by
    decide +kernel
  exact hall n h

theorem payload_more {n : ℕ} (h : n < 128) :
    payload (UInt8.ofNat n ||| 0x80) = n ∧ more (UInt8.ofNat n ||| 0x80) = true := by
  have hall : ∀ n < 128, payload (UInt8.ofNat n ||| 0x80) = n ∧
      more (UInt8.ofNat n ||| 0x80) = true := by
    decide +kernel
  exact hall n h

/-- A number is one byte, or a byte with its low bits before the encoding of the rest. -/
theorem encode_cases (value : ℕ) :
    (value < 128 ∧ ∃ byte, encode value = [byte] ∧ payload byte = value ∧ more byte = false) ∨
    (128 ≤ value ∧ ∃ byte, encode value = byte :: encode (value / 128) ∧
      payload byte = value % 128 ∧ more byte = true) := by
  have hlow : value &&& 0x7f = value % 128 := Nat.and_two_pow_sub_one_eq_mod value 7
  have hhigh : value >>> 7 = value / 128 := Nat.shiftRight_eq_div_pow value 7
  have hmod : value % 128 < 128 := Nat.mod_lt _ (by decide)
  rw [encode]
  simp only [hlow, hhigh]
  by_cases hlt : value < 128
  · left
    rw [if_pos (by omega), Nat.mod_eq_of_lt hlt]
    exact ⟨hlt, _, rfl, payload_last hlt⟩
  · right
    rw [if_neg (by omega)]
    exact ⟨by omega, _, rfl, payload_more hmod⟩

/-- `k` bytes hold `7 * k` bits. -/
theorem length_encode_le {k value : ℕ} (h : value < 128 ^ (k + 1)) :
    (encode value).length ≤ k + 1 := by
  induction k generalizing value with
  | zero =>
    rcases encode_cases value with ⟨-, byte, heq, -⟩ | ⟨hge, -⟩
    · rw [heq, List.length_singleton]
    · omega
  | succ k ih =>
    rcases encode_cases value with ⟨-, byte, heq, -⟩ | ⟨-, byte, heq, -⟩
    · rw [heq, List.length_singleton]
      omega
    · rw [heq, List.length_cons]
      refine Nat.succ_le_succ (ih ?_)
      rw [pow_succ] at h
      exact Nat.div_lt_of_lt_mul (by rwa [mul_comm])

end Leb128
