import Mathlib.Tactic.Ring
import SaeOS.Lib.Region

/-!
# Byte memory and lists threaded through it

Memory as a function from addresses to bytes, with 64-bit little-endian words. `Threads m c l` says that
the words at the addresses of `l` link them into a list that starts at `c` and ends in null; putting an
address in front and taking the first one off are what a free list kept inside the free blocks does.
-/

/-- Byte-addressed memory. -/
abbrev Memory : Type :=
  ℕ → UInt8

namespace Memory

/-- The number in `n` bytes, least significant first. -/
def readBytes (m : Memory) (address : ℕ) : ℕ → ℕ
  | 0 => 0
  | n + 1 => (m address).toNat + 2 ^ 8 * readBytes m (address + 1) n

/-- The 64-bit word at an address. -/
def readWord (m : Memory) (address : ℕ) : ℕ :=
  m.readBytes address 8

def writeWord (m : Memory) (address value : ℕ) : Memory := fun x =>
  if (⟨address, 8⟩ : Region).Has x then UInt8.ofNat (value / 2 ^ (8 * (x - address))) else m x

/-- Copy `n` bytes; the two places do not overlap. -/
def copy (m : Memory) (src dst n : ℕ) : Memory := fun x =>
  if (⟨dst, n⟩ : Region).Has x then m (src + (x - dst)) else m x

variable {m m' : Memory} {address value n : ℕ}

theorem readBytes_congr (h : ∀ i < n, m' (address + i) = m (address + i)) :
    m'.readBytes address n = m.readBytes address n := by
  induction n generalizing address with
  | zero => rfl
  | succ n ih =>
    have hhead := h 0 (Nat.succ_pos n)
    rw [Nat.add_zero] at hhead
    rw [readBytes, readBytes, hhead, ih fun i hi => ?_]
    have htail := h (i + 1) (Nat.succ_lt_succ hi)
    rwa [Nat.add_comm i 1, ← Nat.add_assoc] at htail

/-- Bytes that spell a number read as that number. -/
theorem readBytes_of_spelled {v : ℕ}
    (h : ∀ i < n, m (address + i) = UInt8.ofNat (v / 2 ^ (8 * i))) :
    m.readBytes address n = v % 2 ^ (8 * n) := by
  induction n generalizing address v with
  | zero => rw [readBytes, Nat.mul_zero, Nat.pow_zero, Nat.mod_one]
  | succ n ih =>
    have hhead := h 0 (Nat.succ_pos n)
    have htail : m.readBytes (address + 1) n = v / 2 ^ 8 % 2 ^ (8 * n) := by
      refine ih fun i hi => ?_
      have hi' := h (i + 1) (Nat.succ_lt_succ hi)
      rw [Nat.add_comm i 1, ← Nat.add_assoc] at hi'
      rw [hi', Nat.div_div_eq_div_mul, ← Nat.pow_add]
      congr 2
      ring
    rw [Nat.mul_zero, Nat.pow_zero, Nat.div_one, Nat.add_zero] at hhead
    have hpow : 2 ^ (8 * (n + 1)) = 2 ^ 8 * 2 ^ (8 * n) := by ring
    rw [readBytes, hhead, htail, hpow, Nat.mod_mul, UInt8.toNat_ofNat']

/-- A word that was written reads back. -/
theorem readWord_writeWord (hvalue : value < 2 ^ 64) :
    (m.writeWord address value).readWord address = value := by
  have hspelled : ∀ i < 8, m.writeWord address value (address + i) =
      UInt8.ofNat (value / 2 ^ (8 * i)) := by
    intro i hi
    have hhas : (⟨address, 8⟩ : Region).Has (address + i) :=
      ⟨Nat.le_add_right _ _, Nat.add_lt_add_left hi _⟩
    rw [writeWord, if_pos hhas, Nat.add_sub_cancel_left]
  rw [readWord, readBytes_of_spelled hspelled]
  exact Nat.mod_eq_of_lt hvalue

theorem writeWord_of_not_has {x : ℕ} (h : ¬ (⟨address, 8⟩ : Region).Has x) :
    m.writeWord address value x = m x :=
  if_neg h

theorem copy_of_not_has {src dst x : ℕ} (h : ¬ (⟨dst, n⟩ : Region).Has x) :
    m.copy src dst n x = m x :=
  if_neg h

theorem copy_of_lt {src dst i : ℕ} (h : i < n) : m.copy src dst n (dst + i) = m (src + i) := by
  have hhas : (⟨dst, n⟩ : Region).Has (dst + i) := ⟨Nat.le_add_right _ _, Nat.add_lt_add_left h _⟩
  rw [copy, if_pos hhas, Nat.add_sub_cancel_left]

/-- The words at the addresses of the list link them, from `c` to null. -/
def Threads (m : Memory) : ℕ → List ℕ → Prop
  | c, [] => c = 0
  | c, x :: l => c = x ∧ x ≠ 0 ∧ Threads m (m.readWord x) l

variable {c x : ℕ} {l : List ℕ}

/-- Only the words at the list's own addresses matter. -/
theorem Threads.congr (h : Threads m c l) (hsame : ∀ x ∈ l, ∀ i < 8, m' (x + i) = m (x + i)) :
    Threads m' c l := by
  induction l generalizing c with
  | nil => exact h
  | cons x l ih =>
    obtain ⟨hc, hne, hrest⟩ := h
    refine ⟨hc, hne, ?_⟩
    have hword : m'.readWord x = m.readWord x := readBytes_congr (hsame x List.mem_cons_self)
    rw [hword]
    exact ih hrest fun y hy => hsame y (List.mem_cons_of_mem _ hy)

/-- Linking a new address in front. -/
theorem Threads.push (h : Threads m c l) (hc : c < 2 ^ 64) (hx : x ≠ 0)
    (hapart : ∀ y ∈ l, Region.Apart ⟨x, 8⟩ ⟨y, 8⟩) : Threads (m.writeWord x c) x (x :: l) := by
  refine ⟨rfl, hx, ?_⟩
  rw [readWord_writeWord hc]
  refine h.congr fun y hy i hi => writeWord_of_not_has ?_
  exact (hapart y hy).symm.not_has ⟨Nat.le_add_right _ _, Nat.add_lt_add_left hi _⟩

/-- A list that does not start at null has a first address. -/
theorem Threads.pop (h : Threads m c l) (hc : c ≠ 0) :
    ∃ l', l = c :: l' ∧ Threads m (m.readWord c) l' := by
  cases l with
  | nil => exact absurd h hc
  | cons x l =>
    obtain ⟨rfl, -, hrest⟩ := h
    exact ⟨l, rfl, hrest⟩

/-- Where the list starts. -/
theorem Threads.head (h : Threads m c l) : c = 0 ∨ c ∈ l := by
  cases l with
  | nil => exact Or.inl h
  | cons x l =>
    obtain ⟨rfl, -, -⟩ := h
    exact Or.inr List.mem_cons_self

end Memory
