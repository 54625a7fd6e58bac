import Mathlib.Algebra.Order.Ring.Nat
import Mathlib.Algebra.Ring.Nat
import Mathlib.Data.Nat.Log
import Mathlib.Tactic.Common

/-!
# Memory layouts

A size together with an alignment that is a power of two, and the roundings an allocator does with them.
As in the language's own type, the size rounded up to the alignment fits a signed word, so that rounding
never overflows.
-/

/-- `usize::MAX + 1`. -/
def Layout.wordLimit : ℕ := 2 ^ 64

/-- `checked_add`. -/
def Layout.checkedAdd (a b : ℕ) : Option ℕ :=
  if a + b < wordLimit then some (a + b) else none

/-- The next multiple of `k` from `n` on. -/
def Layout.roundUp (n k : ℕ) : ℕ :=
  (n + k - 1) / k * k

structure Layout where
  size : ℕ
  /-- The logarithm of the alignment. -/
  log : ℕ
  log_lt : log < 64
  fits : Layout.roundUp size (2 ^ log) < 2 ^ 63
  deriving DecidableEq

namespace Layout

def align (l : Layout) : ℕ :=
  2 ^ l.log

/-- `Layout::from_size_align` for an alignment known to be a power of two. -/
def fromSizeLog (size log : ℕ) : Option Layout :=
  if h : log < 64 ∧ roundUp size (2 ^ log) < 2 ^ 63 then some ⟨size, log, h.1, h.2⟩ else none

/-- `pad_to_align`. -/
def padToAlign (l : Layout) : ℕ :=
  roundUp l.size l.align

section RoundUp

variable {n k : ℕ}

theorem le_roundUp (hk : 0 < k) : n ≤ roundUp n k := by
  unfold roundUp
  have hdiv := Nat.div_add_mod (n + k - 1) k
  have hmod := Nat.mod_lt (n + k - 1) hk
  rw [Nat.mul_comm] at hdiv
  omega

theorem roundUp_lt (hk : 0 < k) : roundUp n k < n + k := by
  unfold roundUp
  have hle := Nat.div_mul_le_self (n + k - 1) k
  omega

theorem dvd_roundUp : k ∣ roundUp n k :=
  Nat.dvd_mul_left _ _

/-- The rounded number is the least multiple. -/
theorem roundUp_le {t : ℕ} (hk : 0 < k) (hdvd : k ∣ t) (hle : n ≤ t) : roundUp n k ≤ t := by
  obtain ⟨q, rfl⟩ := hdvd
  unfold roundUp
  have hdiv : (n + k - 1) / k ≤ q := by
    have hlt : n + k - 1 < k * (q + 1) := by
      rw [Nat.mul_succ]
      omega
    exact Nat.lt_succ_iff.mp (Nat.div_lt_of_lt_mul hlt)
  rw [Nat.mul_comm k q]
  exact Nat.mul_le_mul_right k hdiv

end RoundUp

variable {l : Layout}

theorem align_pos : 0 < l.align :=
  Nat.two_pow_pos l.log

/-- Powers of two divide each other in order. -/
theorem align_dvd {k : ℕ} (h : l.align ≤ 2 ^ k) : l.align ∣ 2 ^ k :=
  Nat.pow_dvd_pow 2 ((Nat.pow_le_pow_iff_right Nat.one_lt_two).mp h)

theorem fromSizeLog_some {size log : ℕ} (h : fromSizeLog size log = some l) :
    l.size = size ∧ l.log = log := by
  unfold fromSizeLog at h
  split_ifs at h
  cases h
  exact ⟨rfl, rfl⟩

theorem checkedAdd_of_lt {a b : ℕ} (h : a + b < wordLimit) : checkedAdd a b = some (a + b) :=
  if_pos h

theorem checkedAdd_eq_some {a b c : ℕ} (h : checkedAdd a b = some c) : c = a + b ∧ a + b < wordLimit := by
  unfold checkedAdd at h
  split_ifs at h with hlt
  exact ⟨(Option.some.inj h).symm, hlt⟩

end Layout
