import SaeOS.Lib.Region

/-!
# Loops that stride through an interval

A loop that cuts an interval into pieces from its lower end: where it stands decides how large the
next piece is. `pieces` is the list of these pieces, and they are consecutive and cover the interval
if no piece reaches past its end. Two loops that go through the same list, stop at the first error
and keep different states are compared by `Alike`.

The module introduces:

* `Consecutive lo hi l` — the regions of `l` follow each other from `lo` to `hi`.
* `pieces size stop x` — the pieces from `x` on.
* `Alike R x y` — the same error, or results related by `R`.
-/

namespace Region

/-- Each region begins where the one before it ends, the first at `lo`, and the last ends at
`hi`. -/
def Consecutive : ℕ → ℕ → List Region → Prop
  | lo, hi, [] => lo = hi
  | lo, hi, r :: rest => r.start = lo ∧ 0 < r.size ∧ Consecutive r.stop hi rest

namespace Consecutive

variable {lo mid hi : ℕ} {l l' : List Region}

theorem le (h : Consecutive lo hi l) : lo ≤ hi := by
  induction l generalizing lo with
  | nil => exact Nat.le_of_eq h
  | cons r rest ih =>
    obtain ⟨rfl, -, hrest⟩ := h
    exact Nat.le_trans (Nat.le_add_right _ _) (ih hrest)

/-- The addresses in one of the regions are those of the interval. -/
theorem has_iff (h : Consecutive lo hi l) (address : ℕ) :
    (∃ r ∈ l, r.Has address) ↔ lo ≤ address ∧ address < hi := by
  induction l generalizing lo with
  | nil =>
    have heq : lo = hi := h
    simp only [List.not_mem_nil, false_and, exists_false, false_iff]
    omega
  | cons r rest ih =>
    obtain ⟨rfl, -, hrest⟩ := h
    have hle := hrest.le
    rw [List.exists_mem_cons_iff, ih hrest]
    unfold Has stop at *
    omega

end Consecutive

/-- The pieces of an interval from `x` on, where `size x` is the size of the piece at `x`. -/
def pieces (size : ℕ → ℕ) (stop x : ℕ) : List Region :=
  if x < stop ∧ 0 < size x then ⟨x, size x⟩ :: pieces size stop (x + size x) else []
termination_by stop - x

section Pieces

variable {size : ℕ → ℕ} {stop x : ℕ}

theorem pieces_of_lt (hx : x < stop) (hpos : 0 < size x) :
    pieces size stop x = ⟨x, size x⟩ :: pieces size stop (x + size x) := by
  rw [pieces, if_pos ⟨hx, hpos⟩]

theorem pieces_of_ge (hx : stop ≤ x) : pieces size stop x = [] := by
  rw [pieces, if_neg fun h => absurd h.1 (Nat.not_lt.mpr hx)]

/-- A property of positions that each piece hands on holds where every piece begins. -/
theorem mem_pieces {P : ℕ → Prop} (hstep : ∀ x, P x → x < stop → P (x + size x)) (hx : P x)
    {r : Region} (hr : r ∈ pieces size stop x) :
    P r.start ∧ r.start < stop ∧ r.size = size r.start := by
  induction x using pieces.induct size stop with
  | case1 x h ih =>
    rw [pieces, if_pos h] at hr
    rcases List.mem_cons.mp hr with rfl | hr
    · exact ⟨hx, h.1, rfl⟩
    · exact ih (hstep x hx h.1) hr
  | case2 x h =>
    rw [pieces, if_neg h] at hr
    cases hr

/-- Pieces that do not reach past the end cover the interval. -/
theorem pieces_consecutive {P : ℕ → Prop}
    (hstep : ∀ x, P x → x < stop → 0 < size x ∧ x + size x ≤ stop ∧ P (x + size x)) (hx : P x)
    (hle : x ≤ stop) : Consecutive x stop (pieces size stop x) := by
  induction x using pieces.induct size stop with
  | case1 x h ih =>
    obtain ⟨hpos, hnext, hP⟩ := hstep x hx h.1
    rw [pieces, if_pos h]
    exact ⟨rfl, hpos, ih hP hnext⟩
  | case2 x h =>
    rw [pieces, if_neg h]
    by_contra hne
    have hlt : x < stop := Nat.lt_of_le_of_ne hle hne
    exact h ⟨hlt, (hstep x hx hlt).1⟩

end Pieces

end Region

/-! ## Loops with errors -/

section Alike

variable {ε α σ τ : Type} {R : σ → τ → Prop}

/-- Both fail with the same error, or both succeed with related results. -/
inductive Alike (R : σ → τ → Prop) : Except ε σ → Except ε τ → Prop
  | error (e : ε) : Alike R (.error e) (.error e)
  | ok {s : σ} {t : τ} : R s t → Alike R (.ok s) (.ok t)

/-- Loops over one list whose steps are alike. -/
theorem Alike.foldlM {f : σ → α → Except ε σ} {g : τ → α → Except ε τ} {l : List α}
    (h : ∀ a ∈ l, ∀ s t, R s t → Alike R (f s a) (g t a)) {s : σ} {t : τ} (hst : R s t) :
    Alike R (l.foldlM f s) (l.foldlM g t) := by
  induction l generalizing s t with
  | nil => exact .ok hst
  | cons a l ih =>
    have hl := fun b hb => h b (List.mem_cons_of_mem a hb)
    rw [List.foldlM_cons, List.foldlM_cons]
    have hfirst := h a List.mem_cons_self s t hst
    generalize f s a = x, g t a = y at hfirst
    cases hfirst with
    | error e => exact .error e
    | ok hst => exact ih hl hst

theorem Alike.cases {x : Except ε σ} {y : Except ε τ} (h : Alike R x y) :
    (∃ e, x = .error e ∧ y = .error e) ∨ ∃ s t, x = .ok s ∧ y = .ok t ∧ R s t := by
  cases h with
  | error e => exact Or.inl ⟨e, rfl, rfl⟩
  | ok h => exact Or.inr ⟨_, _, rfl, rfl, h⟩

end Alike
