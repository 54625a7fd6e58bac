import Mathlib.Algebra.BigOperators.Group.List.Basic
import Mathlib.Algebra.GroupWithZero.Nat
import Mathlib.Data.List.Perm.Basic
import Mathlib.Tactic.Common

/-!
# Regions and tilings

Half-open regions of addresses, and lists of regions that cover an interval without overlap. An
allocator cuts regions into pieces and joins pieces that touch; both keep a tiling, so that what it has
handed out, what it holds back and what is free never overlap and always add up.

The module introduces:

* `Region.Apart a b` — no address is in both.
* `Tiling lo hi l` — the regions of `l` are apart, lie in `[lo, hi)` and add up to its length.
-/

/-- The addresses from `start` up to `start + size`. -/
structure Region where
  start : ℕ
  size : ℕ
  deriving DecidableEq, Repr

namespace Region

/-- The first address behind a region. -/
def stop (r : Region) : ℕ :=
  r.start + r.size

/-- No address is in both regions. -/
def Apart (a b : Region) : Prop :=
  a.stop ≤ b.start ∨ b.stop ≤ a.start

/-- The region lies between two addresses. -/
def Within (r : Region) (lo hi : ℕ) : Prop :=
  lo ≤ r.start ∧ r.stop ≤ hi

/-- The address is in the region. -/
def Has (r : Region) (address : ℕ) : Prop :=
  r.start ≤ address ∧ address < r.stop

instance (a b : Region) : Decidable (a.Apart b) :=
  inferInstanceAs (Decidable (_ ∨ _))

instance (r : Region) (address : ℕ) : Decidable (r.Has address) :=
  inferInstanceAs (Decidable (_ ∧ _))

variable {a b r : Region}

theorem Apart.symm (h : a.Apart b) : b.Apart a :=
  Or.symm h

/-- Regions that are apart share no address. -/
theorem Apart.not_has (h : a.Apart b) {address : ℕ} (ha : a.Has address) : ¬ b.Has address := by
  rintro ⟨hb, hb'⟩
  obtain ⟨ha, ha'⟩ := ha
  unfold Apart at h
  omega

/-- A region inside another is apart from what that one is apart from. -/
theorem Apart.mono (h : a.Apart b) (hr : r.Within a.start a.stop) : r.Apart b := by
  obtain ⟨hlo, hhi⟩ := hr
  unfold Apart at h ⊢
  omega

theorem Within.mono {lo hi lo' hi' : ℕ} (h : r.Within lo hi) (hlo : lo' ≤ lo) (hhi : hi ≤ hi') :
    r.Within lo' hi' :=
  ⟨Nat.le_trans hlo h.1, Nat.le_trans h.2 hhi⟩

/-- The blocks of one size that a region starting at `start` is cut into. -/
def blocks (start size : ℕ) : ℕ → List Region
  | 0 => []
  | n + 1 => ⟨start, size⟩ :: blocks (start + size) size n

/-- The blocks on `n` lists, one for each size. -/
def cached (sizes : ℕ → ℕ) (n : ℕ) (lists : ℕ → List ℕ) : List Region :=
  (List.range n).flatMap fun k => (lists k).map fun x => ⟨x, sizes k⟩

section Cached

variable {sizes : ℕ → ℕ} {n k x : ℕ} {lists : ℕ → List ℕ}

theorem mem_cached : r ∈ cached sizes n lists ↔ ∃ k < n, ∃ x ∈ lists k, r = ⟨x, sizes k⟩ := by
  simp only [cached, List.mem_flatMap, List.mem_range, List.mem_map, eq_comm]

/-- A block put on one of the lists. -/
theorem cached_push (hk : k < n) (x : ℕ) :
    (cached sizes n (Function.update lists k (x :: lists k))).Perm
      (⟨x, sizes k⟩ :: cached sizes n lists) := by
  induction n with
  | zero => exact absurd hk (Nat.not_lt_zero k)
  | succ n ih =>
    have hsnoc : ∀ lists : ℕ → List ℕ, cached sizes (n + 1) lists =
        cached sizes n lists ++ (lists n).map fun x => ⟨x, sizes n⟩ := fun lists => by
      simp [cached, List.range_succ]
    rw [hsnoc, hsnoc]
    rcases Nat.lt_succ_iff_lt_or_eq.mp hk with hlt | rfl
    · rw [Function.update_of_ne (Nat.ne_of_gt hlt)]
      exact (ih hlt).append_right _
    · -- the lists before are as they were
      have hbefore : cached sizes k (Function.update lists k (x :: lists k)) = cached sizes k lists := by
        refine List.flatMap_congr fun j hj => ?_
        rw [Function.update_of_ne (Nat.ne_of_lt (List.mem_range.mp hj))]
      rw [hbefore, Function.update_self, List.map_cons]
      exact List.perm_middle

/-- The first block taken off one of the lists. -/
theorem cached_pop (hk : k < n) {l : List ℕ} (hl : lists k = x :: l) :
    (cached sizes n lists).Perm (⟨x, sizes k⟩ :: cached sizes n (Function.update lists k l)) := by
  have hpush : (cached sizes n (Function.update (Function.update lists k l) k
      (x :: Function.update lists k l k))).Perm
        (⟨x, sizes k⟩ :: cached sizes n (Function.update lists k l)) := cached_push hk x
  rwa [Function.update_self, Function.update_idem, ← hl, Function.update_eq_self] at hpush

end Cached

end Region

/-- The regions are apart, none is empty, and together they make up the interval. -/
structure Tiling (lo hi : ℕ) (l : List Region) : Prop where
  apart : l.Pairwise Region.Apart
  within : ∀ r ∈ l, r.Within lo hi
  pos : ∀ r ∈ l, 0 < r.size
  total : (l.map Region.size).sum = hi - lo

namespace Tiling

variable {lo hi : ℕ} {a b r : Region} {l l' : List Region}

theorem perm (h : Tiling lo hi l) (hperm : l.Perm l') : Tiling lo hi l' where
  apart := hperm.pairwise h.apart Region.Apart.symm
  within := fun r hr => h.within r (hperm.mem_iff.mpr hr)
  pos := fun r hr => h.pos r (hperm.mem_iff.mpr hr)
  total := by
    rw [← (hperm.map Region.size).sum_eq]
    exact h.total

theorem single {start size : ℕ} (hsize : 0 < size) : Tiling start (start + size) [⟨start, size⟩] where
  apart := List.pairwise_singleton _ _
  within := fun r hr => by
    rw [List.mem_singleton.mp hr]
    exact ⟨Nat.le_refl _, Nat.le_refl _⟩
  pos := fun r hr => by
    rw [List.mem_singleton.mp hr]
    exact hsize
  total := by
    rw [List.map_singleton, List.sum_singleton, Nat.add_sub_cancel_left]

/-- A region may be cut in two. -/
theorem split (h : Tiling lo hi (r :: l)) {n : ℕ} (hn : 0 < n) (hlt : n < r.size) :
    Tiling lo hi (⟨r.start, n⟩ :: ⟨r.start + n, r.size - n⟩ :: l) := by
  obtain ⟨hhead, htail⟩ := List.pairwise_cons.mp h.apart
  have hwithin := h.within r List.mem_cons_self
  have hfirst : (⟨r.start, n⟩ : Region).Within r.start r.stop := by
    refine ⟨Nat.le_refl _, ?_⟩
    unfold Region.stop
    dsimp only
    omega
  have hsecond : (⟨r.start + n, r.size - n⟩ : Region).Within r.start r.stop := by
    refine ⟨Nat.le_add_right _ _, ?_⟩
    unfold Region.stop
    dsimp only
    omega
  refine ⟨?_, ?_, ?_, ?_⟩
  · rw [List.pairwise_cons, List.pairwise_cons]
    refine ⟨?_, fun o ho => (hhead o ho).mono hsecond, htail⟩
    rintro o ho
    rcases List.mem_cons.mp ho with rfl | ho
    · exact Or.inl (Nat.le_refl _)
    · exact (hhead o ho).mono hfirst
  · rintro o ho
    simp only [List.mem_cons] at ho
    rcases ho with rfl | rfl | ho
    · exact hfirst.mono hwithin.1 hwithin.2
    · exact hsecond.mono hwithin.1 hwithin.2
    · exact h.within o (List.mem_cons_of_mem _ ho)
  · rintro o ho
    simp only [List.mem_cons] at ho
    rcases ho with rfl | rfl | ho
    · exact hn
    · exact Nat.sub_pos_of_lt hlt
    · exact h.pos o (List.mem_cons_of_mem _ ho)
  · have htotal := h.total
    simp only [List.map_cons, List.sum_cons] at htotal ⊢
    omega

/-- Two regions that touch may be joined. -/
theorem merge (h : Tiling lo hi (a :: b :: l)) (htouch : a.stop = b.start) :
    Tiling lo hi (⟨a.start, a.size + b.size⟩ :: l) := by
  obtain ⟨hhead, htail⟩ := List.pairwise_cons.mp h.apart
  obtain ⟨hhead', htail'⟩ := List.pairwise_cons.mp htail
  have ha := h.within a List.mem_cons_self
  have hb := h.within b (List.mem_cons_of_mem _ List.mem_cons_self)
  have hrest : ∀ o ∈ l, o ∈ a :: b :: l := fun o ho => List.mem_cons_of_mem _ (List.mem_cons_of_mem _ ho)
  unfold Region.Within Region.stop at ha hb
  unfold Region.stop at htouch
  refine ⟨?_, ?_, ?_, ?_⟩
  · refine List.pairwise_cons.mpr ⟨fun o ho => ?_, htail'⟩
    -- a region between the two would be empty
    have hpos := h.pos o (hrest o ho)
    have hoa := hhead o (List.mem_cons_of_mem _ ho)
    have hob := hhead' o ho
    unfold Region.Apart Region.stop at hoa hob ⊢
    dsimp only
    omega
  · rintro o ho
    rcases List.mem_cons.mp ho with rfl | ho
    · refine ⟨ha.1, ?_⟩
      unfold Region.stop
      dsimp only
      omega
    · exact h.within o (hrest o ho)
  · rintro o ho
    rcases List.mem_cons.mp ho with rfl | ho
    · exact Nat.add_pos_left (h.pos a List.mem_cons_self) _
    · exact h.pos o (hrest o ho)
  · have htotal := h.total
    simp only [List.map_cons, List.sum_cons] at htotal ⊢
    omega

/-- A region cut into blocks of one size. -/
theorem cut {start size : ℕ} (hsize : 0 < size) {n : ℕ} (hn : 0 < n)
    (h : Tiling lo hi (⟨start, size * n⟩ :: l)) :
    Tiling lo hi (Region.blocks start size n ++ l) := by
  induction n generalizing start l with
  | zero => exact absurd hn (Nat.lt_irrefl 0)
  | succ n ih =>
    rcases Nat.eq_zero_or_pos n with rfl | hpos
    · rwa [Nat.mul_one] at h
    · have hlt : size < size * (n + 1) := by
        rw [Nat.mul_succ]
        have := Nat.mul_pos hsize hpos
        omega
      have hsplit := h.split hsize hlt
      have hless : size * (n + 1) - size = size * n := by rw [Nat.mul_succ, Nat.add_sub_cancel]
      dsimp only at hsplit
      rw [hless] at hsplit
      have hrest := ih hpos (hsplit.perm (List.Perm.swap _ _ _))
      refine hrest.perm ?_
      rw [Region.blocks]
      exact List.perm_middle

/-- Regions of a tiling that stand at different places are apart. -/
theorem apart_append (h : Tiling lo hi (l ++ l')) (ha : a ∈ l) (hb : b ∈ l') : a.Apart b :=
  (List.pairwise_append.mp h.apart).2.2 a ha b hb

end Tiling
