import Mathlib.Data.Set.Lattice

/-!
# Computations that read memory

A computation reads bytes that may or may not be readable, stops at the first that is not, and may panic.
`Exact x bytes result` says that it reads just `bytes`: it stops at one of them unless all are readable, and then
its result is `result`. `Within x bytes P` says of one that reads no others what its values are.
-/

/-- Why a computation stopped. -/
inductive ReadStop
  | panicked
  | faulted (address : ℕ)
  deriving DecidableEq, Repr

/-- A computation that reads memory, of which some bytes are readable. -/
abbrev Reading (α : Type) : Type :=
  ReaderT (ℕ → Bool) (Except ReadStop) α

namespace Reading

variable {α β : Type}

/-- Read one byte. -/
def load (memory : ℕ → β) (address : ℕ) : Reading β :=
  fun readable => if readable address then .ok (memory address) else .error (.faulted address)

def panics : Reading α :=
  fun _ => .error .panicked

/-- The bytes from an address on. -/
def span (base length : ℕ) : Set ℕ :=
  {a | base ≤ a ∧ a < base + length}

theorem mem_span {base length a : ℕ} : a ∈ span base length ↔ base ≤ a ∧ a < base + length :=
  Iff.rfl

theorem span_subset {base length base' length' : ℕ} (hbase : base' ≤ base)
    (hlength : base + length ≤ base' + length') : span base length ⊆ span base' length' :=
  fun _ ha => ⟨hbase.trans ha.1, ha.2.trans_le hlength⟩

theorem span_subset_add {base offset length whole : ℕ} (h : offset + length ≤ whole) :
    span (base + offset) length ⊆ span base whole :=
  span_subset (Nat.le_add_right _ _) (by omega)

/-- All of the bytes are readable. -/
def Covers (readable : ℕ → Bool) (bytes : Set ℕ) : Prop :=
  ∀ a ∈ bytes, readable a = true

theorem Covers.mono {readable : ℕ → Bool} {bytes bytes' : Set ℕ} (h : Covers readable bytes)
    (hsubset : bytes' ⊆ bytes) : Covers readable bytes' :=
  fun a ha => h a (hsubset ha)

/-- A computation that has stopped at a byte that is not readable. -/
def Faults (readable : ℕ → Bool) (outcome : Except ReadStop α) : Prop :=
  ∃ a, readable a = false ∧ outcome = .error (.faulted a)

/-- What a computation with a result, or that panics, gives. -/
def outcome : Option α → Except ReadStop α
  | some value => .ok value
  | none => .error .panicked

/-- The computation reads just these bytes, with this result. -/
structure Exact (x : Reading α) (bytes : Set ℕ) (result : Option α) : Prop where
  covered : ∀ readable, Covers readable bytes → x readable = outcome result
  uncovered : ∀ readable, ¬ Covers readable bytes → Faults readable (x readable)

/-- The computation reads none but these bytes, and its values satisfy `P`. -/
def Within (x : Reading α) (bytes : Set ℕ) (P : α → Prop) : Prop :=
  ∀ readable, Covers readable bytes → x readable = .error .panicked ∨ ∃ value, x readable = .ok value ∧ P value

/-! ## Operations that read just these bytes -/

variable {x : Reading α} {f : α → Reading β} {bytes bytes' : Set ℕ} {value : α} {result : Option β}

theorem Exact.pure (value : α) : Exact (pure value) ∅ (some value) :=
  ⟨fun _ _ => rfl, fun _ h => absurd (fun _ ha => absurd ha (Set.notMem_empty _)) h⟩

theorem Exact.panics : Exact (panics : Reading α) ∅ none :=
  ⟨fun _ _ => rfl, fun _ h => absurd (fun _ ha => absurd ha (Set.notMem_empty _)) h⟩

theorem Exact.load (memory : ℕ → α) (address : ℕ) : Exact (load memory address) {address} (some (memory address)) := by
  constructor
  · intro readable h
    exact if_pos (h address rfl)
  · intro readable h
    have hnot : readable address = false := by
      by_contra hyes
      exact h fun a ha => ha ▸ Bool.eq_true_of_not_eq_false hyes
    refine ⟨address, hnot, ?_⟩
    rw [Reading.load, hnot]
    rfl

theorem bind_apply (x : Reading α) (f : α → Reading β) (readable : ℕ → Bool) :
    (x >>= f) readable = (x readable).bind fun value => f value readable :=
  rfl

theorem Faults.bind {readable : ℕ → Bool} (h : Faults readable (x readable)) (f : α → Reading β) :
    Faults readable ((x >>= f) readable) := by
  obtain ⟨a, ha, heq⟩ := h
  refine ⟨a, ha, ?_⟩
  rw [bind_apply, heq]
  rfl

/-- One computation after another. -/
theorem Exact.bind (bytes' : Set ℕ) (hx : Exact x bytes (some value)) (hf : Exact (f value) bytes' result) :
    Exact (x >>= f) (bytes ∪ bytes') result := by
  constructor
  · intro readable h
    rw [bind_apply, hx.covered readable (h.mono Set.subset_union_left)]
    exact hf.covered readable (h.mono Set.subset_union_right)
  · intro readable h
    by_cases hfirst : Covers readable bytes
    · have hsecond : ¬ Covers readable bytes' := by
        intro hsecond
        exact h fun a ha => ha.elim (hfirst a) (hsecond a)
      rw [bind_apply, hx.covered readable hfirst]
      exact hf.uncovered readable hsecond
    · exact (hx.uncovered readable hfirst).bind f

/-- What follows a panic does not matter. -/
theorem Exact.bind_panics (hx : Exact x bytes none) (f : α → Reading β) : Exact (x >>= f) bytes none := by
  constructor
  · intro readable h
    rw [bind_apply, hx.covered readable h]
    rfl
  · intro readable h
    exact (hx.uncovered readable h).bind f

/-- A computation that is followed by one that reads some of the same bytes. -/
theorem Exact.bind_again (hx : Exact x bytes (some value)) (hf : Exact (f value) bytes' result)
    (hsubset : bytes' ⊆ bytes) : Exact (x >>= f) bytes result := by
  have h := hx.bind bytes' hf
  rwa [Set.union_eq_self_of_subset_right hsubset] at h

/-- A computation that is followed by one that reads nothing. -/
theorem Exact.bind_empty (hx : Exact x bytes (some value)) (hf : Exact (f value) ∅ result) :
    Exact (x >>= f) bytes result :=
  hx.bind_again hf (Set.empty_subset _)

theorem Exact.congr {result' : Option α} (hx : Exact x bytes result') (hbytes : bytes = bytes') :
    Exact x bytes' result' :=
  hbytes ▸ hx

/-! ## Operations that read none but these bytes -/

variable {P : α → Prop} {Q : β → Prop}

theorem Within.pure (h : P value) : Within (Pure.pure value) bytes P :=
  fun _ _ => .inr ⟨value, rfl, h⟩

theorem Exact.within {result : Option α} (h : Exact x bytes' result) (hsubset : bytes' ⊆ bytes) :
    Within x bytes fun value => result = some value := by
  intro readable hcovers
  rw [h.covered readable (hcovers.mono hsubset)]
  cases result with
  | none => exact .inl rfl
  | some value => exact .inr ⟨value, rfl, rfl⟩

theorem Within.bind (hx : Within x bytes P) (hf : ∀ value, P value → Within (f value) bytes Q) :
    Within (x >>= f) bytes Q := by
  intro readable hcovers
  rcases hx readable hcovers with hpanicked | ⟨value, hvalue, hp⟩
  · left
    rw [bind_apply, hpanicked]
    rfl
  · rw [bind_apply, hvalue]
    exact hf value hp readable hcovers

theorem Within.mono {P' : α → Prop} (hx : Within x bytes P) (himp : ∀ value, P value → P' value) :
    Within x bytes P' :=
  fun readable hcovers => (hx readable hcovers).imp_right fun ⟨value, hvalue, hp⟩ => ⟨value, hvalue, himp value hp⟩

theorem Within.load (memory : ℕ → α) {address : ℕ} (h : address ∈ bytes) :
    Within (load memory address) bytes fun value => value = memory address := by
  intro readable hcovers
  exact .inr ⟨memory address, if_pos (hcovers address h), rfl⟩

/-! ## Runs -/

/-- A run that has not stopped at a byte. -/
def NoFault (r : Except ReadStop α) : Prop :=
  ∀ a, r ≠ .error (.faulted a)

theorem NoFault.ok (value : α) : NoFault (.ok value : Except ReadStop α) :=
  (fun _ h => by cases h)

theorem NoFault.panicked : NoFault (.error .panicked : Except ReadStop α) :=
  (fun _ h => by cases h)

theorem Within.noFault (h : Within x bytes P) {readable : ℕ → Bool} (hcovers : Covers readable bytes) :
    NoFault (x readable) := by
  rcases h readable hcovers with hpanicked | ⟨value, hvalue, -⟩
  · rw [hpanicked]
    exact NoFault.panicked
  · rw [hvalue]
    exact NoFault.ok value

theorem Within.of_ok (h : Within x bytes P) {readable : ℕ → Bool} (hcovers : Covers readable bytes)
    (hok : x readable = .ok value) : P value := by
  rcases h readable hcovers with hpanicked | ⟨value', hvalue, hp⟩
  · exact absurd (hpanicked.symm.trans hok) (by simp)
  · obtain rfl := Except.ok.inj (hvalue.symm.trans hok)
    exact hp

variable {result' : Option α} {k : α → Except ReadStop β} {readable : ℕ → Bool}

/-- A run that begins with reading these bytes. -/
theorem Exact.noFault_iff (hx : Exact x bytes result') :
    NoFault ((x readable).bind k) ↔ Covers readable bytes ∧ ∀ value, result' = some value → NoFault (k value) := by
  by_cases hcovers : Covers readable bytes
  · rw [hx.covered readable hcovers, and_iff_right hcovers]
    cases result' with
    | none => exact ⟨fun _ _ h => (absurd h (by simp)), fun _ => NoFault.panicked⟩
    | some value =>
      constructor
      · rintro h _ ⟨⟩
        exact h
      · exact fun h => h value rfl
  · obtain ⟨a, -, heq⟩ := hx.uncovered readable hcovers
    rw [heq]
    exact ⟨fun h => absurd rfl (h a), fun h => absurd h.1 hcovers⟩

theorem Exact.of_bind_ok {last : β} (hx : Exact x bytes result') (h : (x readable).bind k = .ok last) :
    Covers readable bytes ∧ ∃ value, result' = some value ∧ k value = .ok last := by
  by_cases hcovers : Covers readable bytes
  · rw [hx.covered readable hcovers] at h
    cases result' with
    | none => contradiction
    | some value => exact ⟨hcovers, value, rfl, h⟩
  · obtain ⟨a, -, heq⟩ := hx.uncovered readable hcovers
    rw [heq] at h
    contradiction

/-! ## Loops over bytes -/

section Bytes

variable (memory : ℕ → UInt8)

/-- Read an unsigned little-endian number of `n` bytes. -/
def number (address : ℕ) : ℕ → Reading ℕ
  | 0 => Pure.pure 0
  | n + 1 => do
    let first ← load memory address
    let rest ← number (address + 1) n
    return first.toNat + 256 * rest

/-- The number. -/
def numberAt (address : ℕ) : ℕ → ℕ
  | 0 => 0
  | n + 1 => (memory address).toNat + 256 * numberAt (address + 1) n

theorem span_zero (base : ℕ) : ∅ = span base 0 := by
  ext a
  constructor
  · exact fun h => absurd h (Set.notMem_empty a)
  · rintro ⟨hle, hlt⟩
    omega

theorem span_succ (base n : ℕ) : {base} ∪ span (base + 1) n = span base (n + 1) := by
  ext a
  rw [Set.mem_union, Set.mem_singleton_iff, mem_span, mem_span]
  omega

theorem Exact.number (address n : ℕ) :
    Exact (number memory address n) (span address n) (some (numberAt memory address n)) := by
  induction n generalizing address with
  | zero =>
    exact (Exact.pure 0).congr (span_zero address)
  | succ n ih =>
    have hrest : Exact (do
        let rest ← Reading.number memory (address + 1) n
        return (memory address).toNat + 256 * rest) (span (address + 1) n)
        (some (numberAt memory address (n + 1))) :=
      (ih (address + 1)).bind_empty (Exact.pure _)
    exact ((Exact.load memory address).bind _ hrest).congr (span_succ address n)

/-- Add up bytes, modulo 256. -/
def sum (address : ℕ) : ℕ → UInt8 → Reading UInt8
  | 0, total => Pure.pure total
  | n + 1, total => do
    let byte ← load memory address
    sum (address + 1) n (total + byte)

/-- The sum. -/
def sumAt (address : ℕ) : ℕ → UInt8 → UInt8
  | 0, total => total
  | n + 1, total => sumAt (address + 1) n (total + memory address)

theorem Exact.sum (address n : ℕ) (total : UInt8) :
    Exact (sum memory address n total) (span address n) (some (sumAt memory address n total)) := by
  induction n generalizing address total with
  | zero =>
    exact (Exact.pure total).congr (span_zero address)
  | succ n ih =>
    exact ((Exact.load memory address).bind _ (ih (address + 1) (total + memory address))).congr (span_succ address n)

/-- Compare bytes with a text, up to the first that differs. -/
def startsWith (address : ℕ) : List UInt8 → Reading Bool
  | [] => Pure.pure true
  | expected :: text => do
    let byte ← load memory address
    if byte ≠ expected then return false
    startsWith (address + 1) text

/-- The text stands at the address. -/
def textAt (address : ℕ) : List UInt8 → Bool
  | [] => true
  | expected :: text => memory address = expected && textAt (address + 1) text

/-- How many bytes are compared. -/
def compared (address : ℕ) : List UInt8 → ℕ
  | [] => 0
  | expected :: text => if memory address = expected then compared (address + 1) text + 1 else 1

theorem Exact.startsWith (address : ℕ) (text : List UInt8) :
    Exact (startsWith memory address text) (span address (compared memory address text))
      (some (textAt memory address text)) := by
  induction text generalizing address with
  | nil =>
    exact (Exact.pure true).congr (span_zero address)
  | cons expected text ih =>
    rw [compared, textAt]
    by_cases heq : memory address = expected
    · rw [if_pos heq, decide_eq_true heq, Bool.true_and]
      refine ((Exact.load memory address).bind _ ?_).congr (span_succ address _)
      rw [if_neg (not_not.mpr heq)]
      exact ih (address + 1)
    · rw [if_neg heq, decide_eq_false heq, Bool.false_and]
      have hstop : Exact (if memory address ≠ expected then Pure.pure false
          else Reading.startsWith memory (address + 1) text) ∅ (some false) := by
        rw [if_pos heq]
        exact Exact.pure false
      refine ((Exact.load memory address).bind_empty hstop).congr ?_
      ext a
      rw [mem_span, Set.mem_singleton_iff]
      omega

/-- All of a text that stands there is compared. -/
theorem compared_of_textAt {address : ℕ} {text : List UInt8} (h : textAt memory address text = true) :
    compared memory address text = text.length := by
  induction text generalizing address with
  | nil => rfl
  | cons expected text ih =>
    rw [textAt, Bool.and_eq_true, decide_eq_true_iff] at h
    rw [compared, if_pos h.1, ih h.2, List.length_cons]

end Bytes

end Reading
