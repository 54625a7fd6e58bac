import Mathlib.Data.Nat.ModEq
import Mathlib.Data.List.Range
import Mathlib.Tactic.Linarith

/-!
# Rasters

Rows of cells in one block of memory, a fixed number of cells apart. Every access is checked against the
block: a step that leaves it has no result. What a loop paints and how a loop moves rows is described cell by
cell.
-/

/-- Rows of `stride` cells. -/
structure Raster (α : Type*) where
  stride : ℕ
  height : ℕ
  cell : ℕ → α

namespace Raster

variable {α ι : Type*}

def size (r : Raster α) : ℕ :=
  r.stride * r.height

/-- The cell in row `y` and column `x`. -/
def at_ (r : Raster α) (y x : ℕ) : α :=
  r.cell (y * r.stride + x)

def read (i : ℕ) (r : Raster α) : Option α :=
  if i < r.size then some (r.cell i) else none

def write (i : ℕ) (a : α) (r : Raster α) : Option (Raster α) :=
  if i < r.size then some { r with cell := fun j => if j = i then a else r.cell j } else none

/-- `count` cells from one place to another that they do not overlap with. -/
def copy (source target count : ℕ) (r : Raster α) : Option (Raster α) :=
  if source + count ≤ r.size ∧ target + count ≤ r.size ∧ (source + count ≤ target ∨ target + count ≤ source) then
    some { r with cell := fun j => if target ≤ j ∧ j < target + count then r.cell (source + (j - target)) else r.cell j }
  else none

variable {r r' r'' : Raster α}

/-! ## Places -/

theorem place_lt {y x : ℕ} (hx : x < r.stride) (hy : y < r.height) : y * r.stride + x < r.size := by
  have hrows : (y + 1) * r.stride ≤ r.height * r.stride := Nat.mul_le_mul_right _ hy
  rw [Nat.succ_mul] at hrows
  rw [size, Nat.mul_comm r.stride]
  omega

/-- A place determines its row and its column. -/
theorem place_inj {stride y x y' x' : ℕ} (hx : x < stride) (hx' : x' < stride) :
    y * stride + x = y' * stride + x' ↔ y = y' ∧ x = x' := by
  constructor
  · intro h
    have hpos : 0 < stride := Nat.zero_lt_of_lt hx
    have hy : y = y' := by
      have hdiv := congrArg (· / stride) h
      simpa [Nat.add_div_of_dvd_right (Dvd.intro_left y rfl), Nat.add_div_of_dvd_right (Dvd.intro_left y' rfl),
        Nat.mul_div_cancel _ hpos, Nat.div_eq_of_lt hx, Nat.div_eq_of_lt hx'] using hdiv
    subst hy
    exact ⟨rfl, Nat.add_left_cancel h⟩
  · rintro ⟨rfl, rfl⟩
    rfl

/-! ## Painting -/

/-- The cells of `S` have become those of `f`, and the others are what they were. -/
structure Paints (r r' : Raster α) (S : ℕ → ℕ → Prop) (f : ℕ → ℕ → α) : Prop where
  stride : r'.stride = r.stride
  height : r'.height = r.height
  painted : ∀ y x, x < r.stride → S y x → r'.at_ y x = f y x
  kept : ∀ y x, x < r.stride → ¬ S y x → r'.at_ y x = r.at_ y x

variable {S T : ℕ → ℕ → Prop} {f : ℕ → ℕ → α}

theorem Paints.refl (r : Raster α) (f : ℕ → ℕ → α) : Paints r r (fun _ _ => False) f :=
  ⟨rfl, rfl, fun _ _ _ h => h.elim, fun _ _ _ _ => rfl⟩

theorem Paints.trans (h : Paints r r' S f) (h' : Paints r' r'' T f) : Paints r r'' (fun y x => S y x ∨ T y x) f := by
  refine ⟨h'.stride.trans h.stride, h'.height.trans h.height, fun y x hx hpainted => ?_, fun y x hx hkept => ?_⟩
  · have hx' : x < r'.stride := h.stride ▸ hx
    by_cases hT : T y x
    · exact h'.painted y x hx' hT
    · rw [h'.kept y x hx' hT, h.painted y x hx (hpainted.resolve_right hT)]
  · rw [not_or] at hkept
    rw [h'.kept y x (h.stride ▸ hx) hkept.2, h.kept y x hx hkept.1]

theorem Paints.congr (h : Paints r r' S f) {g : ℕ → ℕ → α} (hS : ∀ y x, S y x ↔ T y x)
    (hf : ∀ y x, x < r.stride → S y x → f y x = g y x) : Paints r r' T g := by
  refine ⟨h.stride, h.height, fun y x hx hT => ?_, fun y x hx hT => h.kept y x hx (hT ∘ (hS y x).mp)⟩
  have hmem := (hS y x).mpr hT
  rw [h.painted y x hx hmem, hf y x hx hmem]

theorem write_paints {y x : ℕ} (hx : x < r.stride) (hy : y < r.height) (a : α) :
    ∃ r', r.write (y * r.stride + x) a = some r' ∧ Paints r r' (fun y' x' => y' = y ∧ x' = x) fun _ _ => a := by
  refine ⟨_, if_pos (place_lt hx hy), rfl, rfl, ?_, ?_⟩
  · rintro _ _ _ ⟨rfl, rfl⟩
    exact if_pos rfl
  · intro y' x' hx' hother
    exact if_neg (hother ∘ (place_inj hx' hx).mp)

/-- A loop whose rounds paint cells of one picture, where each may rely on what has not been painted, paints
them all. -/
theorem foldlM_paints (step : Raster α → ι → Option (Raster α)) (l : List ι) (P : ι → ℕ → ℕ → Prop)
    (hstep : ∀ i ∈ l, ∀ r' S, Paints r r' S f → (∀ y x, S y x → ∃ j ∈ l, P j y x) →
      ∃ r'', step r' i = some r'' ∧ Paints r' r'' (P i) f) :
    ∃ r', l.foldlM step r = some r' ∧ Paints r r' (fun y x => ∃ i ∈ l, P i y x) f := by
  -- the rounds that are left, from a raster that some of the cells have been painted in
  have hrest (l' : List ι) (hsub : ∀ i ∈ l', i ∈ l) (u : Raster α) (S : ℕ → ℕ → Prop) (hu : Paints r u S f)
      (hS : ∀ y x, S y x → ∃ j ∈ l, P j y x) :
      ∃ u', l'.foldlM step u = some u' ∧ Paints u u' (fun y x => ∃ i ∈ l', P i y x) f := by
    induction l' generalizing u S with
    | nil => exact ⟨u, rfl, (Paints.refl u f).congr (fun y x => by simp) fun _ _ _ _ => rfl⟩
    | cons i l' ih =>
      have hi := hsub i List.mem_cons_self
      obtain ⟨u', hfirst, hpaints⟩ := hstep i hi u S hu hS
      obtain ⟨u'', hmore, hothers⟩ := ih (fun j hj => hsub j (List.mem_cons_of_mem _ hj)) u' _ (hu.trans hpaints)
        fun y x hpainted => hpainted.elim (hS y x) fun hP => ⟨i, hi, hP⟩
      refine ⟨u'', ?_, (hpaints.trans hothers).congr (fun y x => ?_) fun _ _ _ _ => rfl⟩
      · rw [List.foldlM_cons, hfirst]
        exact hmore
      · rw [List.exists_mem_cons_iff]
  exact hrest l (fun _ hi => hi) r _ (Paints.refl r f) fun _ _ h => h.elim

/-! ## Moving rows -/

/-- Row `y` has become row `y + d`, and the others are what they were. -/
def Moves (d y : ℕ) (r r' : Raster α) : Prop :=
  Paints r r' (fun y' _ => y' = y) fun y' x => r.at_ (y' + d) x

theorem copy_moves {d y : ℕ} (hd : 0 < d) (hy : y + d < r.height) :
    ∃ r', r.copy ((y + d) * r.stride) (y * r.stride) r.stride = some r' ∧ Moves d y r r' := by
  have hrow {k : ℕ} (hk : k < r.height) : k * r.stride + r.stride ≤ r.size := by
    have hrows : (k + 1) * r.stride ≤ r.height * r.stride := Nat.mul_le_mul_right _ hk
    rw [Nat.succ_mul] at hrows
    rwa [size, Nat.mul_comm r.stride]
  have happart : y * r.stride + r.stride ≤ (y + d) * r.stride := by
    rw [← Nat.succ_mul]
    exact Nat.mul_le_mul_right _ (by omega)
  refine ⟨_, if_pos ⟨hrow hy, hrow (by omega), .inr happart⟩, rfl, rfl, ?_, ?_⟩
  · rintro _ x hx rfl
    refine (if_pos ⟨Nat.le_add_right _ _, Nat.add_lt_add_left hx _⟩).trans ?_
    rw [Nat.add_sub_cancel_left]
    rfl
  · intro y' x hx hother
    refine if_neg fun h => hother ?_
    have hge : y * r.stride ≤ y' * r.stride + x := h.1
    have hlt : y' * r.stride + x < y * r.stride + r.stride := h.2
    -- a place inside the row is one of its columns
    have hinside : y' * r.stride + x = y * r.stride + (y' * r.stride + x - y * r.stride) := by omega
    exact ((place_inj hx (by omega)).mp hinside).1

/-- Rows moved up one after the other are moved up at once. -/
theorem foldlM_moves {d n : ℕ} (step : Raster α → ℕ → Option (Raster α)) (hd : 0 < d)
    (hstep : ∀ y < n, ∀ r' : Raster α, r'.stride = r.stride → r'.height = r.height →
      ∃ r'', step r' y = some r'' ∧ Moves d y r' r'') :
    ∃ r', (List.range n).foldlM step r = some r' ∧ Paints r r' (fun y _ => y < n) fun y x => r.at_ (y + d) x := by
  induction n with
  | zero => exact ⟨r, rfl, (Paints.refl r fun y x => r.at_ (y + d) x).congr (fun y _ => by simp) fun _ _ _ _ => rfl⟩
  | succ n ih =>
    obtain ⟨r', hfirst, hpaints⟩ := ih fun y hy => hstep y (hy.trans (Nat.lt_succ_self n))
    obtain ⟨r'', hlast, hmoves⟩ := hstep n (Nat.lt_succ_self n) r' hpaints.stride hpaints.height
    have hmoves' : Paints r' r'' (fun y _ => y = n) fun y x => r.at_ (y + d) x := by
      refine hmoves.congr (fun _ _ => Iff.rfl) ?_
      rintro _ x hx rfl
      -- the row that is copied has not been moved over yet
      exact hpaints.kept _ x (hpaints.stride ▸ hx) (by omega)
    refine ⟨r'', ?_, (hpaints.trans hmoves').congr (fun y x => ?_) fun _ _ _ _ => rfl⟩
    · rw [List.range_succ, List.foldlM_append, hfirst]
      show [n].foldlM step r' = some r''
      rw [List.foldlM_cons, hlast]
      rfl
    · rw [Nat.lt_succ_iff_lt_or_eq]

end Raster
