import Mathlib.Algebra.Group.Nat.Defs
import Mathlib.Data.List.Basic
import Mathlib.Data.Nat.Basic
import Mathlib.Logic.Function.Basic
import Mathlib.Tactic.Common

/-!
# Reference-counted frames

The frame allocator as the address-space code sees it (`alloc_frame`, `free_frame`, `frame_get` and
`frame_refcount` of `mm/frame.rs`). Which free frame an allocation finds, with what left-over bytes,
and whether one is found at all is not decided here: `allocations` lists what the next allocations
will see, and an entry that names a frame in use counts as exhaustion. `reservations` does the same
for `Vec::try_reserve`. A statement about every pool is thus a statement about every order of
frames and every point of exhaustion.

`Transfer pool pool' before after` says that the references in `before` were given up and those in
`after` obtained. Transfers compose and leave frames with further references alone; the operations on
address spaces are shown to be transfers of the references that the spaces hold. An `Exchange` is a
transfer whose new references are all to freshly allocated frames; only `frame_get` is not one.
-/

namespace SaeOS.Frame

/-- The largest `u16` reference count. -/
def maxRefcount : ℕ := 2 ^ 16 - 1

/-- Frames with their reference counts and bytes. -/
structure Pool where
  refcount : ℕ → ℕ
  /-- Frames that have a reference count at all; device memory has none. -/
  tracked : ℕ → Bool
  bytes : ℕ → ℕ → UInt8
  allocations : List (Option (ℕ × (ℕ → UInt8))) := []
  reservations : List Bool := []
  /-- A frame without references was freed: the kernel panics. -/
  panicked : Bool := false
  /-- How often each frame was handed out and given back. -/
  allocated : ℕ → ℕ := fun _ => 0
  released : ℕ → ℕ := fun _ => 0

namespace Pool

/-- `alloc_frame`. -/
def allocFrame (pool : Pool) : Option ℕ × Pool :=
  match pool.allocations with
  | [] => (none, pool)
  | none :: rest => (none, { pool with allocations := rest })
  | some (f, contents) :: rest =>
    if pool.refcount f = 0 ∧ pool.tracked f = true then
      (some f, { pool with
        refcount := Function.update pool.refcount f 1
        bytes := Function.update pool.bytes f contents
        allocations := rest
        allocated := Function.update pool.allocated f (pool.allocated f + 1) })
    else (none, { pool with allocations := rest })

/-- Overwrite a frame. -/
def fill (pool : Pool) (f : ℕ) (contents : ℕ → UInt8) : Pool :=
  { pool with bytes := Function.update pool.bytes f contents }

@[simp]
theorem fill_bytes_self (pool : Pool) (f : ℕ) (contents : ℕ → UInt8) :
    (pool.fill f contents).bytes f = contents :=
  Function.update_self _ _ _

/-- `alloc_frame_zeroed`. -/
def allocFrameZeroed (pool : Pool) : Option ℕ × Pool :=
  match pool.allocFrame with
  | (none, pool) => (none, pool)
  | (some f, pool) => (some f, pool.fill f fun _ => 0)

/-- `free_frame`: drop one reference; the last one gives the frame back. -/
def freeFrame (pool : Pool) (f : ℕ) : Pool :=
  if pool.tracked f = false ∨ pool.refcount f = 0 then { pool with panicked := true }
  else if pool.refcount f = 1 then
    { pool with
      refcount := Function.update pool.refcount f 0
      released := Function.update pool.released f (pool.released f + 1) }
  else { pool with refcount := Function.update pool.refcount f (pool.refcount f - 1) }

@[simp]
theorem freeFrame_bytes (pool : Pool) (f : ℕ) : (pool.freeFrame f).bytes = pool.bytes := by
  unfold freeFrame
  split_ifs <;> rfl

/-- `frame_get`: take another reference, unless there is none yet or no more fit. -/
def frameGet (pool : Pool) (f : ℕ) : Bool × Pool :=
  if pool.tracked f = true ∧ pool.refcount f ≠ 0 ∧ pool.refcount f ≠ maxRefcount then
    (true, { pool with refcount := Function.update pool.refcount f (pool.refcount f + 1) })
  else (false, pool)

/-- Whether a frame has more than one reference (`frame_refcount(frame).unwrap_or(1) > 1`). -/
def shared (pool : Pool) (f : ℕ) : Bool :=
  pool.tracked f && decide (pool.refcount f > 1)

/-- `try_reserve` of `count` more elements. -/
def tryReserve (pool : Pool) (count : ℕ) : Bool × Pool :=
  if count = 0 then (true, pool)
  else
    match pool.reservations with
    | [] => (true, pool)
    | ok :: rest => (ok, { pool with reservations := rest })

/-- Free every frame of a list. -/
def freeAll (pool : Pool) (frames : List ℕ) : Pool :=
  frames.foldl freeFrame pool

/-- Every reference in the list is counted, and its frame tracked. -/
def Holds (pool : Pool) (refs : List ℕ) : Prop :=
  ∀ f, refs.count f ≤ pool.refcount f ∧ (f ∈ refs → pool.tracked f = true)

theorem Holds.congr {pool : Pool} {a b : List ℕ} (h : pool.Holds a) (hab : a.Perm b) :
    pool.Holds b :=
  fun f => ⟨hab.count_eq f ▸ (h f).1, fun hf => (h f).2 (hab.mem_iff.mpr hf)⟩

theorem Holds.of_append_left {pool : Pool} {a b : List ℕ} (h : pool.Holds (a ++ b)) :
    pool.Holds a := by
  intro f
  obtain ⟨hcount, htracked⟩ := h f
  rw [List.count_append] at hcount
  exact ⟨by omega, fun hf => htracked (List.mem_append_left b hf)⟩

theorem Holds.of_append_right {pool : Pool} {a b : List ℕ} (h : pool.Holds (a ++ b)) :
    pool.Holds b :=
  (h.congr List.perm_append_comm).of_append_left

theorem holds_nil (pool : Pool) : pool.Holds [] :=
  fun _ => ⟨Nat.zero_le _, fun hf => absurd hf List.not_mem_nil⟩

/-- A frame was handed out once more than it was given back exactly if it has references. -/
def Balanced (pool : Pool) : Prop :=
  ∀ f, pool.allocated f = pool.released f + if pool.refcount f = 0 then 0 else 1

end Pool

/-! ## Transfers -/

/-- The references in `before` were given up for those in `after`; frames that have references
beyond `before` keep their bytes. -/
structure Transfer (pool pool' : Pool) (before after : List ℕ) : Prop where
  count : ∀ f, pool'.refcount f + before.count f = pool.refcount f + after.count f
  tracked : pool'.tracked = pool.tracked
  panicked : pool'.panicked = pool.panicked
  bytes : ∀ f, before.count f < pool.refcount f → pool'.bytes f = pool.bytes f
  balanced : pool.Balanced → pool'.Balanced
  new_tracked : ∀ f, f ∈ after → f ∈ before ∨ pool.tracked f = true

namespace Transfer

variable {pool pool' pool'' : Pool} {a a' b b' c x : List ℕ} {f : ℕ}

theorem refl (pool : Pool) (a : List ℕ) : Transfer pool pool a a :=
  ⟨fun _ => rfl, rfl, rfl, fun _ _ => rfl, id, fun _ => Or.inl⟩

theorem trans (h : Transfer pool pool' a b) (h' : Transfer pool' pool'' b c) :
    Transfer pool pool'' a c where
  count f := by
    have := h.count f
    have := h'.count f
    omega
  tracked := h'.tracked.trans h.tracked
  panicked := h'.panicked.trans h.panicked
  bytes f hf := by
    -- references beyond `a` before the first transfer are references beyond `b` after it
    have hcount := h.count f
    exact (h'.bytes f (by omega)).trans (h.bytes f hf)
  balanced hb := h'.balanced (h.balanced hb)
  new_tracked f hf := by
    rcases h'.new_tracked f hf with hb | ht
    · exact h.new_tracked f hb
    · exact Or.inr (h.tracked ▸ ht)

/-- Further references are not affected. -/
theorem frame (h : Transfer pool pool' a b) (x : List ℕ) :
    Transfer pool pool' (a ++ x) (b ++ x) where
  count f := by
    have := h.count f
    simp only [List.count_append]
    omega
  tracked := h.tracked
  panicked := h.panicked
  bytes f hf := by
    rw [List.count_append] at hf
    exact h.bytes f (by omega)
  balanced := h.balanced
  new_tracked f hf := by
    rcases List.mem_append.mp hf with hb | hx
    · rcases h.new_tracked f hb with ha | ht
      · exact Or.inl (List.mem_append_left x ha)
      · exact Or.inr ht
    · exact Or.inl (List.mem_append_right a hx)

/-- References obtained for nothing, next to others. -/
theorem add (h : Transfer pool pool' [] b) (x : List ℕ) : Transfer pool pool' x (b ++ x) := by
  have := h.frame x
  rwa [List.nil_append] at this

/-- Only how often each frame is referred to matters. -/
theorem congr (h : Transfer pool pool' a b) (ha : a.Perm a') (hb : b.Perm b') :
    Transfer pool pool' a' b' where
  count f := by
    have := h.count f
    rw [← ha.count_eq, ← hb.count_eq]
    omega
  tracked := h.tracked
  panicked := h.panicked
  bytes f hf := h.bytes f (by rwa [ha.count_eq])
  balanced := h.balanced
  new_tracked f hf := by
    rcases h.new_tracked f (hb.mem_iff.mpr hf) with hmem | ht
    · exact Or.inl (ha.mem_iff.mp hmem)
    · exact Or.inr ht

/-- References that were counted still are. -/
theorem holds (h : Transfer pool pool' a b) (hold : pool.Holds (a ++ x)) :
    pool'.Holds (b ++ x) := by
  intro f
  obtain ⟨hcount, htracked⟩ := hold f
  have := h.count f
  rw [List.count_append] at hcount ⊢
  refine ⟨by omega, fun hmem => ?_⟩
  rw [h.tracked]
  rcases List.mem_append.mp hmem with hb | hx
  · rcases h.new_tracked f hb with ha | ht
    · exact htracked (List.mem_append_left x ha)
    · exact ht
  · exact htracked (List.mem_append_right a hx)

/-- The same, without further references. -/
theorem holds_self (h : Transfer pool pool' a b) (hold : pool.Holds a) : pool'.Holds b := by
  have := h.holds (x := []) (by rwa [List.append_nil])
  rwa [List.append_nil] at this

end Transfer

/-- A transfer that refers to further frames only by allocating them. -/
structure Exchange (pool pool' : Pool) (before after : List ℕ) : Prop extends
    Transfer pool pool' before after where
  fresh : ∀ f, f ∈ after → f ∉ before → pool.refcount f = 0
  once : pool.Holds before → ∀ f, after.count f ≤ max 1 (before.count f)

namespace Exchange

variable {pool pool' pool'' : Pool} {a a' b b' c x : List ℕ} {f : ℕ}

theorem of_eq (h : Transfer pool pool' a a) : Exchange pool pool' a a :=
  ⟨h, fun _ hf hnot => absurd hf hnot, fun _ _ => le_max_right _ _⟩

theorem refl (pool : Pool) (a : List ℕ) : Exchange pool pool a a :=
  of_eq (Transfer.refl pool a)

/-- Giving references up obtains none. -/
theorem of_nil (h : Transfer pool pool' a []) : Exchange pool pool' a [] :=
  ⟨h, fun _ hf => absurd hf List.not_mem_nil, fun _ _ => Nat.zero_le _⟩

theorem trans (h : Exchange pool pool' a b) (h' : Exchange pool' pool'' b c) :
    Exchange pool pool'' a c where
  toTransfer := h.toTransfer.trans h'.toTransfer
  fresh f hc ha := by
    by_cases hb : f ∈ b
    · exact h.fresh f hb ha
    · -- a frame in neither `a` nor `b` has as many references before as in between
      have hcount := h.count f
      rw [List.count_eq_zero_of_not_mem ha, List.count_eq_zero_of_not_mem hb,
        h'.fresh f hc hb] at hcount
      omega
  once hold f := by
    have hab := h.once hold f
    have hbc := h'.once (h.holds_self hold) f
    omega

theorem frame (h : Exchange pool pool' a b) (x : List ℕ) :
    Exchange pool pool' (a ++ x) (b ++ x) where
  toTransfer := h.toTransfer.frame x
  fresh f hf hnot := by
    rw [List.mem_append, not_or] at hnot
    rcases List.mem_append.mp hf with hb | hx
    · exact h.fresh f hb hnot.1
    · exact absurd hx hnot.2
  once hold f := by
    have hcount := (hold f).1
    rw [List.count_append] at hcount ⊢
    rw [List.count_append]
    have honce := h.once hold.of_append_left f
    by_cases ha : f ∈ a
    · have := List.count_pos_iff.mpr ha
      omega
    · by_cases hb : f ∈ b
      · -- fresh, so nobody else refers to it
        have := h.fresh f hb ha
        omega
      · rw [List.count_eq_zero_of_not_mem hb]
        omega

/-- Frames allocated, next to others. -/
theorem add (h : Exchange pool pool' [] b) (x : List ℕ) : Exchange pool pool' x (b ++ x) := by
  have := h.frame x
  rwa [List.nil_append] at this

/-- Frames given up, next to others. -/
theorem remove (h : Exchange pool pool' a []) (x : List ℕ) : Exchange pool pool' (a ++ x) x := by
  have := h.frame x
  rwa [List.nil_append] at this

/-- Nothing allocated or freed. -/
theorem keep (h : Exchange pool pool' [] []) (x : List ℕ) : Exchange pool pool' x x := by
  have := h.frame x
  rwa [List.nil_append] at this

theorem congr (h : Exchange pool pool' a b) (ha : a.Perm a') (hb : b.Perm b') :
    Exchange pool pool' a' b' where
  toTransfer := h.toTransfer.congr ha hb
  fresh f hf hnot := h.fresh f (hb.mem_iff.mpr hf) fun hmem => hnot (ha.mem_iff.mp hmem)
  once hold f := by
    rw [← ha.count_eq, ← hb.count_eq]
    exact h.once (hold.congr ha.symm) f

end Exchange

/-! ## The operations as transfers -/

section Operations

variable {pool pool' : Pool} {f g : ℕ}

theorem count_singleton_eq (f g : ℕ) : [f].count g = if g = f then 1 else 0 := by
  by_cases h : g = f
  · subst h
    simp
  · simp [h, Ne.symm h]

/-- An allocated frame had no reference and now has one. -/
theorem allocFrame_some (h : pool.allocFrame = (some f, pool')) :
    Exchange pool pool' [] [f] ∧ pool.refcount f = 0 ∧ pool.tracked f = true := by
  unfold Pool.allocFrame at h
  split at h
  · cases h
  · cases h
  · rename_i f' contents rest _
    split_ifs at h with hfree
    rotate_left
    · cases h
    cases h
    have hself : ∀ g, g ∈ [f] → g = f := fun g hg => List.mem_singleton.mp hg
    refine ⟨⟨⟨fun g => ?_, rfl, rfl, fun g hg => ?_, fun hb g => ?_, fun g hg => ?_⟩,
      fun g hg _ => hself g hg ▸ hfree.1, fun _ g => ?_⟩, hfree⟩
    · by_cases hgf : g = f
      · subst hgf
        simp [hfree.1]
      · simp [hgf, count_singleton_eq]
    · have hgf : g ≠ f := fun heq => by
        rw [heq, hfree.1] at hg
        simp at hg
      simp [hgf]
    · by_cases hgf : g = f
      · subst hgf
        have := hb g
        simp only [hfree.1, if_true] at this
        simp [this]
      · simpa [hgf] using hb g
    · rw [hself g hg]
      exact Or.inr hfree.2
    · rw [count_singleton_eq]
      split_ifs <;> simp

theorem allocFrame_none (h : pool.allocFrame = (none, pool')) : Exchange pool pool' [] [] := by
  have hsame : ∀ rest, Exchange pool { pool with allocations := rest } [] [] := fun rest =>
    Exchange.of_eq ⟨fun _ => rfl, rfl, rfl, fun _ _ => rfl, id, fun _ => Or.inl⟩
  unfold Pool.allocFrame at h
  split at h
  · cases h
    exact Exchange.refl _ _
  · cases h
    exact hsame _
  · split_ifs at h
    · cases h
    · cases h
      exact hsame _

/-- A frame whose only references are in `a` may be overwritten. -/
theorem fill_exchange {contents : ℕ → UInt8} {a : List ℕ} (h : pool.refcount f ≤ a.count f) :
    Exchange pool (pool.fill f contents) a a := by
  refine Exchange.of_eq ⟨fun _ => rfl, rfl, rfl, fun g hg => ?_, id, fun _ => Or.inl⟩
  have hne : g ≠ f := fun heq => by
    rw [heq] at hg
    omega
  simp [Pool.fill, hne]

theorem allocFrameZeroed_some (h : pool.allocFrameZeroed = (some f, pool')) :
    Exchange pool pool' [] [f] ∧ pool.refcount f = 0 ∧ pool'.bytes f = fun _ => 0 := by
  unfold Pool.allocFrameZeroed at h
  split at h
  · cases h
  · rename_i f' pool₁ halloc
    cases h
    obtain ⟨hexchange, hzero, -⟩ := allocFrame_some halloc
    have hone : pool₁.refcount f ≤ [f].count f := by
      have := hexchange.count f
      simp only [hzero, List.count_nil] at this
      omega
    exact ⟨hexchange.trans (fill_exchange hone), hzero, by simp [Pool.fill]⟩

theorem allocFrameZeroed_none (h : pool.allocFrameZeroed = (none, pool')) :
    Exchange pool pool' [] [] := by
  unfold Pool.allocFrameZeroed at h
  split at h
  · rename_i pool₁ halloc
    cases h
    exact allocFrame_none halloc
  · cases h

/-- Freeing a frame gives a reference back. -/
theorem freeFrame_exchange (h : pool.Holds [f]) : Exchange pool (pool.freeFrame f) [f] [] := by
  refine Exchange.of_nil ?_
  obtain ⟨hpos, htracked⟩ := h f
  have htracked := htracked (List.mem_singleton_self f)
  rw [List.count_singleton_self] at hpos
  unfold Pool.freeFrame
  rw [if_neg (by rw [htracked]; simp; omega)]
  split_ifs with hone
  · refine ⟨fun g => ?_, rfl, rfl, fun _ _ => rfl, fun hb g => ?_, fun g hg => by cases hg⟩
    · by_cases hgf : g = f
      · subst hgf
        simp [hone]
      · simp [hgf, count_singleton_eq]
    · by_cases hgf : g = f
      · subst hgf
        have := hb g
        rw [if_neg (by omega)] at this
        simp [this]
      · simpa [hgf] using hb g
  · refine ⟨fun g => ?_, rfl, rfl, fun _ _ => rfl, fun hb g => ?_, fun g hg => by cases hg⟩
    · by_cases hgf : g = f
      · subst hgf
        simp only [Function.update_self, List.count_singleton_self, List.count_nil]
        omega
      · simp [hgf, count_singleton_eq]
    · by_cases hgf : g = f
      · subst hgf
        have := hb g
        rw [if_neg (by omega)] at this
        simp only [Function.update_self]
        rw [if_neg (by omega)]
        exact this
      · simpa [hgf] using hb g

theorem frameGet_true (h : pool.frameGet f = (true, pool')) : Transfer pool pool' [] [f] := by
  unfold Pool.frameGet at h
  split_ifs at h with hok
  rotate_left
  · cases h
  cases h
  refine ⟨fun g => ?_, rfl, rfl, fun _ _ => rfl, fun hb g => ?_, fun g hg => ?_⟩
  · by_cases hgf : g = f
    · subst hgf
      simp
    · simp [hgf, count_singleton_eq]
  · by_cases hgf : g = f
    · subst hgf
      have := hb g
      rw [if_neg hok.2.1] at this
      simp [this]
    · simpa [hgf] using hb g
  · rw [List.mem_singleton.mp hg]
    exact Or.inr hok.1

theorem frameGet_false (h : pool.frameGet f = (false, pool')) : pool' = pool := by
  unfold Pool.frameGet at h
  split_ifs at h
  · cases h
  · cases h
    rfl

theorem tryReserve_exchange {count : ℕ} {ok : Bool} {a : List ℕ}
    (h : pool.tryReserve count = (ok, pool')) : Exchange pool pool' a a := by
  refine Exchange.of_eq ?_
  unfold Pool.tryReserve at h
  split_ifs at h
  · cases h
    exact Transfer.refl _ _
  · split at h
    · cases h
      exact Transfer.refl _ _
    · cases h
      exact ⟨fun _ => rfl, rfl, rfl, fun _ _ => rfl, id, fun _ => Or.inl⟩

/-- Freeing a list of frames gives all its references back. -/
theorem freeAll_exchange {frames : List ℕ} (h : pool.Holds frames) :
    Exchange pool (pool.freeAll frames) frames [] := by
  induction frames generalizing pool with
  | nil => exact Exchange.refl _ _
  | cons f frames ih =>
    have hfirst : Exchange pool (pool.freeFrame f) (f :: frames) frames := by
      refine (freeFrame_exchange fun g => ?_).frame frames
      obtain ⟨hcount, htracked⟩ := h g
      refine ⟨?_, fun hg => htracked ?_⟩
      · rw [List.count_cons] at hcount
        rw [count_singleton_eq]
        by_cases hgf : g = f
        · subst hgf
          simp only [beq_self_eq_true, if_true] at hcount ⊢
          omega
        · simp [hgf]
      · rw [List.mem_singleton.mp hg]
        exact List.mem_cons_self
    exact hfirst.trans (ih (hfirst.holds_self h))

end Operations

end SaeOS.Frame
