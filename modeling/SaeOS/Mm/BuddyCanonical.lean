import SaeOS.Mm.BuddyIsolate

/-!
# The canonical form of the free lists

Between calls the listed blocks are determined by the bitmap: they are the maximal aligned blocks of
free frames of order at most `maxOrder`. The invariant behind this is local, no listed block below
`maxOrder` has its buddy listed beside it (`Merged`), and every operation keeps it: a split lists
halves whose other half is pending, and merging stops only at a buddy that is not listed.

From it, by induction on the order, every aligned block of free frames lies in a listed block
(`Merged.contained`). That gives the canonical form, and that `allocate` finds a block whenever the
bitmap has one.
-/

namespace SaeOS.Buddy

open AlignedBlock LinkedList

variable {b : Buddy} {lists : Lists} {P : Set ℕ} {f o : ℕ} {z : Zone}

/-! ## Merged lists -/

/-- All frames of the block exist and are free. -/
def AllFree (b : Buddy) (f o : ℕ) : Prop :=
  f + 2 ^ o ≤ b.frameCount ∧ ∀ g ∈ block f o, b.state g = .free

/-- An aligned block of free frames of a listable order that is in no larger one. -/
structure MaximalFree (b : Buddy) (f o : ℕ) : Prop where
  order_le : o ≤ maxOrder
  aligned : 2 ^ o ∣ f
  free : b.AllFree f o
  maximal : ∀ f' o', o' ≤ maxOrder → 2 ^ o' ∣ f' → b.AllFree f' o' → block f o ⊆ block f' o' →
    f' = f ∧ o' = o

/-- No listed block has its buddy listed beside it. -/
def Merged (lists : Lists) : Prop :=
  ∀ z z' o f, o < maxOrder → f ∈ lists z o → f ^^^ 2 ^ o ∉ lists z' o

/-- Listing a block whose buddy is not listed. -/
theorem Merged.pushed (h : Merged lists) (hbuddy : o < maxOrder → ∀ z, f ^^^ 2 ^ o ∉ lists z o) :
    Merged (pushed lists f o) := by
  intro z z' o' f' ho' hmem hmem'
  rcases mem_pushed.mp hmem with ⟨rfl, -, rfl⟩ | hold
  · rcases mem_pushed.mp hmem' with ⟨heq, -, -⟩ | hold'
    · exact buddy_ne heq
    · exact hbuddy ho' z' hold'
  · rcases mem_pushed.mp hmem' with ⟨heq, -, rfl⟩ | hold'
    · refine hbuddy ho' z ?_
      rw [← heq, buddy_buddy]
      exact hold
    · exact h z z' o' f' ho' hold hold'

/-- Taking a block off leaves the rest merged. -/
theorem Merged.unlinked (h : Merged lists) (hinv : Inv b lists P) (hf : f ∈ lists z o) :
    Merged (unlinked lists f z o) := by
  intro z₁ z₂ o₁ f₁ ho₁ hmem₁ hmem₂
  exact h z₁ z₂ o₁ f₁ ho₁ ((hinv.mem_unlinked hf).mp hmem₁).1 ((hinv.mem_unlinked hf).mp hmem₂).1

theorem kept_merged : Kept Merged :=
  ⟨fun hinv h hf => h.unlinked hinv hf, fun h hbuddy => h.pushed hbuddy⟩

/-- Every aligned block of free frames is inside a listed block. -/
theorem Merged.contained (hmerged : Merged lists) (h : Inv b lists ∅) (ho : o ≤ maxOrder)
    (hdvd : 2 ^ o ∣ f) (hfree : b.AllFree f o) :
    ∃ z o' f', f' ∈ lists z o' ∧ o ≤ o' ∧ block f o ⊆ block f' o' := by
  -- induction on the order: the two halves are inside listed blocks
  induction o generalizing f with
  | zero =>
    have hlt : f < b.frameCount := hfree.1
    obtain ⟨z, o', f', hf', hin⟩ :=
      ((h.free_iff f hlt).mp (hfree.2 f self_mem_block)).resolve_right (Set.notMem_empty f)
    refine ⟨z, o', f', hf', Nat.zero_le o', ?_⟩
    rw [block_zero]
    exact Set.singleton_subset_iff.mpr hin
  | succ o ih =>
    obtain ⟨hlow, hhigh⟩ := dvd_add_half hdvd
    have hpow : 2 ^ (o + 1) = 2 ^ o + 2 ^ o := by rw [pow_succ]; omega
    have hrange := hfree.1
    have hlowFree : b.AllFree f o := ⟨by omega, fun g hg => hfree.2 g (block_succ ▸ Or.inl hg)⟩
    have hhighFree : b.AllFree (f + 2 ^ o) o :=
      ⟨by omega, fun g hg => hfree.2 g (block_succ ▸ Or.inr hg)⟩
    obtain ⟨z₁, o₁, f₁, hf₁, hle₁, hsub₁⟩ := ih (by omega) hlow hlowFree
    obtain ⟨z₂, o₂, f₂, hf₂, hle₂, hsub₂⟩ := ih (by omega) hhigh hhighFree
    obtain ⟨-, hdvd₁, -, -⟩ := h.listed z₁ o₁ f₁ hf₁
    obtain ⟨-, hdvd₂, -, -⟩ := h.listed z₂ o₂ f₂ hf₂
    -- a larger block around one half is around the whole
    rcases Nat.eq_or_lt_of_le hle₁ with rfl | hlt₁
    · rcases Nat.eq_or_lt_of_le hle₂ with rfl | hlt₂
      · -- both halves are listed, so they should have been merged
        have heq₁ : f₁ = f := by
          rw [← alignDown_eq hdvd₁ (hsub₁ self_mem_block)]
          exact alignDown_eq hlow self_mem_block
        have heq₂ : f₂ = f + 2 ^ o := by
          rw [← alignDown_eq hdvd₂ (hsub₂ self_mem_block)]
          exact alignDown_eq hhigh self_mem_block
        rw [heq₁] at hf₁
        rw [heq₂, ← buddy_of_halves hdvd] at hf₂
        exact absurd hf₂ (hmerged z₁ z₂ o f (by omega) hf₁)
      · exact ⟨z₂, o₂, f₂, hf₂, hlt₂, block_subset hdvd hdvd₂ hlt₂
          (block_succ ▸ Or.inr self_mem_block) (hsub₂ self_mem_block)⟩
    · exact ⟨z₁, o₁, f₁, hf₁, hlt₁, block_subset hdvd hdvd₁ hlt₁ self_mem_block
        (hsub₁ self_mem_block)⟩

/-- The listed blocks are the maximal blocks of free frames. -/
theorem Merged.mem_iff (hmerged : Merged lists) (h : Inv b lists ∅) :
    f ∈ lists z o ↔ z = Zone.of f ∧ b.MaximalFree f o := by
  constructor
  · intro hf
    obtain ⟨ho, hdvd, hz, hrange⟩ := h.listed z o f hf
    refine ⟨hz.symm, ho, hdvd, ⟨hrange, fun g hg => h.state_of_covered ⟨z, o, f, hf, hg⟩⟩, ?_⟩
    intro f' o' ho' hdvd' hfree' hsub
    obtain ⟨z'', o'', f'', hf'', hle, hsub'⟩ := hmerged.contained h ho' hdvd' hfree'
    -- the listed block around it meets this one, so it is this one
    obtain ⟨rfl, rfl⟩ := h.disjoint z o z'' o'' f hf f'' hf'' f self_mem_block
      (hsub' (hsub self_mem_block))
    have hback : o ≤ o' := by
      by_contra hlt
      have hsmall := (block_subset hdvd' hdvd (not_le.mp hlt).le self_mem_block (hsub' self_mem_block))
      have hlast : f + 2 ^ o - 1 ∈ block f' o' := hsub ⟨by have := Nat.two_pow_pos o; omega,
        by have := Nat.two_pow_pos o; omega⟩
      have hfirst : f ∈ block f' o' := hsub self_mem_block
      have hpow : 2 ^ o' < 2 ^ o := Nat.pow_lt_pow_right (by decide) (not_le.mp hlt)
      simp only [mem_block] at hlast hfirst
      omega
    have heq : o' = o := le_antisymm hle hback
    subst heq
    refine ⟨?_, rfl⟩
    rw [← alignDown_eq hdvd' (hsub self_mem_block)]
    exact alignDown_eq hdvd self_mem_block
  · rintro ⟨rfl, hmax⟩
    obtain ⟨z', o', f', hf', -, hsub⟩ := hmerged.contained h hmax.order_le hmax.aligned hmax.free
    obtain ⟨ho', hdvd', hz', hrange'⟩ := h.listed z' o' f' hf'
    have hfree' : b.AllFree f' o' :=
      ⟨hrange', fun g hg => h.state_of_covered ⟨z', o', f', hf', hg⟩⟩
    obtain ⟨rfl, rfl⟩ := hmax.maximal f' o' ho' hdvd' hfree' hsub
    rw [hz']
    exact hf'

/-- What holds between calls: the invariant, on merged lists. -/
def Canonical (b : Buddy) : Prop :=
  ∃ lists, Inv b lists ∅ ∧ Merged lists

/-! ## Building -/

theorem le_trailingZeros {limit k frame : ℕ} (hk : k ≤ limit) (hdvd : 2 ^ k ∣ frame) :
    k ≤ trailingZeros limit frame := by
  induction limit generalizing k frame with
  | zero => omega
  | succ limit ih =>
    cases k with
    | zero => exact Nat.zero_le _
    | succ k =>
      have heven : ¬frame % 2 = 1 := by
        have htwo : 2 ∣ frame := (dvd_pow_self 2 (Nat.succ_ne_zero k)).trans hdvd
        omega
      rw [trailingZeros, if_neg heven]
      refine Nat.succ_le_succ (ih (by omega) ?_)
      rw [pow_succ] at hdvd
      exact (Nat.dvd_div_iff_mul_dvd ((dvd_mul_left 2 _).trans hdvd)).mpr (by rwa [mul_comm])

theorem le_fitOrder {limit k frame stop : ℕ} (hk : k ≤ limit) (hfit : frame + 2 ^ k ≤ stop) :
    k ≤ fitOrder frame stop limit := by
  induction limit with
  | zero => omega
  | succ limit ih =>
    rw [fitOrder]
    split_ifs with hbig
    · refine ih (Nat.lt_succ_iff.mp (lt_of_le_of_ne hk ?_))
      rintro rfl
      omega
    · exact hk

/-- `block_order` picks the largest aligned block that fits. -/
theorem le_blockOrder {k frame stop : ℕ} (hk : k ≤ maxOrder) (hdvd : 2 ^ k ∣ frame)
    (hfit : frame + 2 ^ k ≤ stop) : k ≤ blockOrder frame stop :=
  le_fitOrder (le_trailingZeros hk hdvd) hfit

/-- Below `maxOrder`, no listed lower half has a free block of the next order around it. -/
def LowerMaximal (b : Buddy) (lists : Lists) : Prop :=
  ∀ z o f, f ∈ lists z o → o < maxOrder → 2 ^ (o + 1) ∣ f → ¬b.AllFree f (o + 1)

/-- Two listed halves make a free block of the next order. -/
theorem LowerMaximal.merged (hlower : b.LowerMaximal lists) (h : Inv b lists P) : Merged lists := by
  intro z z' o f ho hf hbuddy
  have hboth : ∀ {l z₁ z₂}, l ∈ lists z₁ o → l + 2 ^ o ∈ lists z₂ o → b.AllFree l (o + 1) := by
    intro l z₁ z₂ hlow hhigh
    have hrange := (h.listed z₂ o _ hhigh).2.2.2
    refine ⟨by rw [pow_succ]; omega, fun g hg => ?_⟩
    rw [block_succ] at hg
    rcases hg with hg | hg
    · exact h.state_of_covered ⟨z₁, o, l, hlow, hg⟩
    · exact h.state_of_covered ⟨z₂, o, _, hhigh, hg⟩
  rcases buddy_eq (h.listed z o f hf).2.1 with ⟨hdvd, heq⟩ | ⟨l, hdvd, rfl, heq⟩
  · rw [heq] at hbuddy
    exact hlower z o f hf ho hdvd (hboth hf hbuddy)
  · rw [heq] at hbuddy
    exact hlower z' o l hbuddy ho hdvd (hboth hbuddy hf)

/-- A larger block at the cursor would reach over the end of the run. -/
theorem LowerMaximal.pushed {stop : ℕ} (hlower : b.LowerMaximal lists) (hlt : f < stop)
    (hstop : stop < b.frameCount → b.state stop ≠ .free) :
    b.LowerMaximal (pushed lists f (blockOrder f stop)) := by
  intro z o g hg hmax haligned hfree
  rcases mem_pushed.mp hg with ⟨rfl, -, rfl⟩ | hold
  · have hover : stop < g + 2 ^ (blockOrder g stop + 1) := by
      by_contra hin
      have hlarger := le_blockOrder hmax haligned (not_lt.mp hin)
      omega
    exact hstop (lt_of_lt_of_le hover hfree.1) (hfree.2 stop ⟨hlt.le, hover⟩)
  · exact hlower z o g hold hmax haligned hfree

/-- `build` lists merged blocks over any bitmap, and does not change the bitmap. -/
theorem Canonical.build (b : Buddy) :
    Canonical b.build ∧ b.build.state = b.state ∧ b.build.frameCount = b.frameCount := by
  obtain ⟨hstate, hcount⟩ := buildFrom_frame b.frameCount
    { b with heads := fun _ _ => noFrame, counts := fun _ _ => 0 } 0
  obtain ⟨lists, hinv, hlower⟩ := Listed.build (R := b.LowerMaximal) b (fun z o f hf => by cases hf)
    fun lists f stop hlower hlt hstop => hlower.pushed hlt hstop
  have hbuilt : b.build.LowerMaximal lists := by
    intro z o f hf hmax haligned hfree
    refine hlower z o f hf hmax haligned ⟨hfree.1.trans_eq hcount, fun g hg => ?_⟩
    rw [← hfree.2 g hg]
    exact (congrFun hstate g).symm
  exact ⟨⟨lists, hinv, hbuilt.merged hinv⟩, hstate, hcount⟩

/-! ## Finding a block -/

/-- A list with a block on it has a head. -/
theorem Inv.head_ne (h : Inv b lists P) (hf : f ∈ lists z o) : b.heads z o ≠ noFrame := by
  have hchain := h.chain z o
  cases hl : lists z o with
  | nil =>
    rw [hl] at hf
    cases hf
  | cons x l =>
    rw [hl] at hchain
    rw [hchain.1]
    exact ne_noFrame b (h.covered_lt (covered_of_mem (hl ▸ List.mem_cons_self)))

/-- `findSource` fails when the lists of the zones are empty from the order on. -/
theorem findSource_eq_none_iff {order : ℕ} {zones : List Zone} :
    b.findSource order zones = none ↔
      ∀ zone ∈ zones, ∀ source, order ≤ source → source ≤ maxOrder → b.heads zone source = noFrame := by
  simp only [findSource, List.findSome?_eq_none_iff, Option.map_eq_none_iff, List.find?_eq_none,
    List.mem_range'_1, bne_iff_ne, ne_eq, not_not]
  constructor
  · intro h zone hzone source hle hmax
    exact h zone hzone source ⟨hle, by omega⟩
  · intro h zone hzone source hsource
    exact h zone hzone source hsource.1 (by omega)

/-- One of the zones has an aligned run of `2 ^ order` free frames. -/
def HasRun (b : Buddy) (order : ℕ) (zones : List Zone) : Prop :=
  ∃ zone ∈ zones, ∃ f, 2 ^ order ∣ f ∧ b.AllFree f order ∧ ∀ g ∈ block f order, Zone.of g = zone

/-- `allocate` fails only if the bitmap has no run of that order. -/
theorem Canonical.allocate_eq_none_iff (h : Canonical b) (order : ℕ) (zones : List Zone) :
    (b.allocate order zones).1 = none ↔ maxOrder < order ∨ ¬b.HasRun order zones := by
  obtain ⟨lists, hinv, hmerged⟩ := h
  unfold Buddy.allocate
  split_ifs with horder
  · exact ⟨fun _ => Or.inl horder, fun _ => rfl⟩
  · have hmax : order ≤ maxOrder := not_lt.mp horder
    have hsource : b.findSource order zones = none ↔ ¬b.HasRun order zones := by
      rw [findSource_eq_none_iff]
      constructor
      · rintro hempty ⟨zone, hzone, f, hdvd, hfree, hin⟩
        -- the run is inside a listed block of its zone
        obtain ⟨z, o, f', hf', hle, hsub⟩ := hmerged.contained hinv hmax hdvd hfree
        obtain ⟨ho, hdvd', hz, -⟩ := hinv.listed z o f' hf'
        have hsame : zone = z := by
          rw [← hin f self_mem_block, zone_of_mem_block ho hdvd' (hsub self_mem_block), hz]
        subst hsame
        exact hinv.head_ne hf' (hempty zone hzone o hle ho)
      · intro hnone zone hzone source hle hsource
        by_contra hhead
        have hmem := hinv.head_mem hhead
        obtain ⟨-, hdvd, hz, hrange⟩ := hinv.listed zone source _ hmem
        have hdvd' : 2 ^ order ∣ b.heads zone source := (pow_dvd_pow 2 hle).trans hdvd
        have hpow : 2 ^ order ≤ 2 ^ source := Nat.pow_le_pow_right (by decide) hle
        refine hnone ⟨zone, hzone, _, hdvd', ⟨by omega, fun g hg => ?_⟩, fun g hg => ?_⟩
        · exact hinv.state_of_covered ⟨zone, source, _, hmem, hg.1, by have := hg.2; omega⟩
        · rw [zone_of_mem_block hmax hdvd' hg, hz]
    rw [← not_lt] at hmax
    cases hfind : b.findSource order zones with
    | none => exact ⟨fun _ => Or.inr (hsource.mp hfind), fun _ => rfl⟩
    | some found =>
      obtain ⟨zone, source⟩ := found
      refine ⟨(fun hnone => absurd hnone (by simp)), ?_⟩
      rintro (hlt | hnone)
      · exact absurd hlt hmax
      · exact absurd (hfind.symm.trans (hsource.mpr hnone)) (by simp)

/-! ## Runs -/

/-- The listed blocks are those that the bitmap determines, and `allocate` finds a block when there is
one. -/
structure CanonicalForm (b : Buddy) : Prop where
  listed_iff : ∀ z o f, f ∈ b.freeList z o ↔ z = Zone.of f ∧ b.MaximalFree f o
  /-- `build` over this bitmap would list the same blocks. -/
  build_iff : ∀ z o f, f ∈ b.freeList z o ↔ f ∈ b.build.freeList z o
  /-- No two free buddies stay unmerged. -/
  merged : ∀ z z' o f, o < maxOrder → f ∈ b.freeList z o → f ^^^ 2 ^ o ∉ b.freeList z' o
  /-- `allocate` fails exactly if there is no run to find, or none may be this large. -/
  complete : ∀ order zones, (b.allocate order zones).1 = none ↔
    maxOrder < order ∨ ¬b.HasRun order zones

theorem Canonical.mem_freeList_iff (h : Canonical b) :
    f ∈ b.freeList z o ↔ z = Zone.of f ∧ b.MaximalFree f o := by
  obtain ⟨lists, hinv, hmerged⟩ := h
  rw [hinv.freeList_eq]
  exact hmerged.mem_iff hinv

/-- The maximal blocks depend on the bitmap only. -/
theorem maximalFree_congr {b' : Buddy} (hstate : b'.state = b.state)
    (hcount : b'.frameCount = b.frameCount) : b'.MaximalFree f o ↔ b.MaximalFree f o := by
  have hfree : ∀ f o, b'.AllFree f o ↔ b.AllFree f o := fun f o => by
    simp only [AllFree, hstate, hcount]
  constructor
  · rintro ⟨h1, h2, h3, h4⟩
    exact ⟨h1, h2, (hfree f o).mp h3, fun f' o' ho' hd' hf' => h4 f' o' ho' hd' ((hfree f' o').mpr hf')⟩
  · rintro ⟨h1, h2, h3, h4⟩
    exact ⟨h1, h2, (hfree f o).mpr h3, fun f' o' ho' hd' hf' => h4 f' o' ho' hd' ((hfree f' o').mp hf')⟩

theorem Canonical.canonicalForm (h : Canonical b) : CanonicalForm b where
  listed_iff := fun _ _ _ => h.mem_freeList_iff
  build_iff := fun z o f => by
    obtain ⟨hbuild, hstate, hcount⟩ := Canonical.build b
    rw [h.mem_freeList_iff, hbuild.mem_freeList_iff, maximalFree_congr hstate hcount]
  merged := by
    obtain ⟨lists, hinv, hmerged⟩ := h
    intro z z' o f ho hf
    rw [hinv.freeList_eq] at hf ⊢
    exact hmerged z z' o f ho hf
  complete := h.allocate_eq_none_iff

/-- From any bitmap, after any sequence of calls that isolates no frame with a forged candidate head,
the free lists have their canonical form. -/
theorem reachable_canonicalForm
    (h : Run.Reachable Initial (Run.Guarded NoForgedStep IsolateStep) b) : CanonicalForm b := by
  refine Canonical.canonicalForm (h.invariant (P := Canonical) ?_ ?_)
  · rintro b ⟨b₀, rfl⟩
    exact (Canonical.build b₀).1
  · rintro b op b' hcanonical ⟨hguard, hstep⟩
    exact kept_merged.isolateStep hcanonical hguard hstep

theorem reachable_canonicalForm_twoAllocated :
    CanonicalForm (twoAllocated.build.release 0 1).2 := by
  have hreach : Run.Reachable Initial (Run.Guarded NoForgedStep IsolateStep)
      (twoAllocated.build.release 0 1).2 :=
    .next (.start ⟨twoAllocated, rfl⟩)
      (show Run.Guarded NoForgedStep IsolateStep _ (.plain (.release 0 1)) _ from ⟨trivial, rfl⟩)
  exact reachable_canonicalForm hreach

/-- 2 GiB of free memory. -/
def halfMillionFree : Buddy where
  heads := fun _ _ => noFrame
  counts := fun _ _ => 0
  frameCount := 2 ^ 19
  noOverflow := by decide
  state := fun _ => .free
  node := fun _ => ⟨0, 0, 0, 0⟩

/-- Orders above `maxOrder` are refused although there is a run. -/
theorem allocate_halfMillionFree :
    Run.Reachable Initial (Run.Guarded NoForgedStep IsolateStep) halfMillionFree.build ∧
      ¬((halfMillionFree.build.allocate 19 [.dma32]).1 = none ↔
        ¬halfMillionFree.build.HasRun 19 [.dma32]) := by
  obtain ⟨-, hstate, hcount⟩ := Canonical.build halfMillionFree
  have hrun : halfMillionFree.build.HasRun 19 [.dma32] := by
    refine ⟨.dma32, List.mem_cons_self, 0, dvd_zero _, ⟨?_, fun g _ => ?_⟩, fun g hg => ?_⟩
    · rw [hcount]
      decide
    · rw [hstate]
      rfl
    · have hlt : g < 2 ^ 19 := by simpa using hg.2
      have hzone : g < dma32Frames := hlt.trans (by decide)
      rw [Zone.of, if_pos hzone]
  refine ⟨.start ⟨halfMillionFree, rfl⟩, fun hiff => hiff.mp ?_ hrun⟩
  have horder : 19 > maxOrder := by decide
  rw [Buddy.allocate, if_pos horder]

end SaeOS.Buddy
