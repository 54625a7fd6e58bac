import SaeOS.Libsaeos.Heap

/-!
# Blocks of the userspace heap never overlap

The blocks in use, the free blocks of the classes and the unused part of the heap are apart at every
moment, whatever the source grants or refuses and whatever the program writes to its blocks. Blocks of
the classes and the unused part lie in memory the heap has grown by, which is never given back; a large
block is a mapping of its own, which is given back when the block is freed.

The module introduces:

* `Covered granted r` — every address of `r` is in one of the regions.
* `Placed ledger s b` — an allocation suits its layout and lies in memory that was granted.
* `Inv ledger h lists held` — the invariant, with `held` the blocks in use.
-/

namespace SaeOS.Libsaeos

open Layout

variable {σ : Type} {src : Source σ} {ledger : Ledger σ} {h : Heap σ} {lists : ℕ → List ℕ}
  {held : List (ℕ × Layout)} {k x : ℕ}

/-! ## Sizes -/

theorem blockSize_eq (k : ℕ) : blockSize k = 2 ^ (k + 4) := by
  rw [blockSize, Nat.shiftLeft_eq, Nat.pow_add, Nat.mul_comm]
  rfl

theorem blockSize_ge (k : ℕ) : 16 ≤ blockSize k := by
  rw [blockSize_eq, Nat.pow_add]
  exact Nat.le_mul_of_pos_left 16 (Nat.two_pow_pos k)

/-- A class has room for its layouts, and its blocks are aligned for them. -/
theorem sizeClass_some {layout : Layout} (hclass : sizeClass layout = some k) :
    k < classes ∧ layout.size ≤ blockSize k ∧ layout.align ∣ blockSize k := by
  obtain ⟨block, hpow, hclass⟩ := Option.bind_eq_some_iff.mp hclass
  unfold nextPowerOfTwo at hpow
  split_ifs at hpow with hword
  cases hpow
  split_ifs at hclass with hlarge
  have hle := Nat.le_pow_clog Nat.one_lt_two (max (max layout.size layout.align) minBlock)
  have hfour : 4 ≤ Nat.clog 2 (max (max layout.size layout.align) minBlock) := by
    refine (Nat.pow_le_pow_iff_right Nat.one_lt_two).mp (Nat.le_trans ?_ hle)
    exact Nat.le_max_right _ _
  have hsixteen : Nat.clog 2 (max (max layout.size layout.align) minBlock) ≤ 16 :=
    (Nat.pow_le_pow_iff_right Nat.one_lt_two).mp hlarge
  -- the class is the exponent less that of the smallest block
  have hk : k + 4 = Nat.clog 2 (max (max layout.size layout.align) minBlock) := by
    have hdiv : 2 ^ Nat.clog 2 (max (max layout.size layout.align) minBlock) / minBlock =
        2 ^ (Nat.clog 2 (max (max layout.size layout.align) minBlock) - 4) :=
      Nat.pow_div hfour Nat.two_pos
    rw [← Option.some.inj hclass, hdiv, Nat.log_pow Nat.one_lt_two]
    exact Nat.sub_add_cancel hfour
  rw [← hk] at hle hsixteen
  rw [blockSize_eq]
  have hcount : classes = 13 := rfl
  exact ⟨by omega, by omega, align_dvd (by omega)⟩

theorem largeSize_some {layout : Layout} {bytes : ℕ} (hlarge : largeSize layout = some bytes) :
    bytes = roundUp layout.size page := by
  unfold largeSize at hlarge
  split_ifs at hlarge
  exact (Option.some.inj hlarge).symm

/-- A layout that gets its own mapping, if its alignment is at most a page, is not empty. -/
theorem size_pos_of_none {layout : Layout} (hclass : sizeClass layout = none)
    (halign : layout.align ≤ page) : 0 < layout.size := by
  by_contra hzero
  have hsize : layout.size = 0 := by omega
  -- a block of a page or less has a class
  have hmax : max (max layout.size layout.align) minBlock ≤ 2 ^ 12 := by
    rw [hsize]
    refine Nat.max_le.mpr ⟨Nat.max_le.mpr ⟨Nat.zero_le _, halign⟩, by decide⟩
  have hclog : Nat.clog 2 (max (max layout.size layout.align) minBlock) ≤ 12 :=
    Nat.clog_le_of_le_pow hmax
  have hpow : 2 ^ Nat.clog 2 (max (max layout.size layout.align) minBlock) ≤ 2 ^ 12 :=
    Nat.pow_le_pow_right Nat.two_pos hclog
  have hword : 2 ^ Nat.clog 2 (max (max layout.size layout.align) minBlock) < wordLimit :=
    lt_of_le_of_lt hpow (by decide)
  have hlarge : 2 ^ Nat.clog 2 (max (max layout.size layout.align) minBlock) ≤ large :=
    Nat.le_trans hpow (by decide)
  unfold sizeClass nextPowerOfTwo at hclass
  rw [if_pos hword] at hclass
  simp only [Option.bind_eq_bind, Option.bind_some, if_pos hlarge] at hclass
  cases hclass

theorem block_of_class {layout : Layout} (hclass : sizeClass layout = some k) :
    block (x, layout) = ⟨x, blockSize k⟩ := by
  unfold block layoutSize
  rw [hclass]

/-! ## Regions -/

/-- Every address of the region is in one of the regions granted. -/
def Covered (granted : List Region) (r : Region) : Prop :=
  ∀ x, r.Has x → ∃ g ∈ granted, g.Has x

theorem Covered.mono {granted granted' : List Region} {r : Region} (hcovered : Covered granted r)
    (hsub : ∀ g ∈ granted, g ∈ granted') : Covered granted' r := by
  intro x hx
  obtain ⟨g, hg, hhas⟩ := hcovered x hx
  exact ⟨g, hsub g hg, hhas⟩

theorem Covered.within {granted : List Region} {r r' : Region} (hcovered : Covered granted r)
    (hwithin : r'.Within r.start r.stop) : Covered granted r' := fun x hx =>
  hcovered x ⟨Nat.le_trans hwithin.1 hx.1, Nat.lt_of_lt_of_le hx.2 hwithin.2⟩

/-- Regions without a common address are apart. -/
theorem apart_of_not_has {a b : Region} (ha : 0 < a.size) (hb : 0 < b.size)
    (hnot : ∀ x, a.Has x → ¬ b.Has x) : a.Apart b := by
  unfold Region.Apart
  by_contra hcommon
  rw [not_or, Nat.not_le, Nat.not_le] at hcommon
  obtain ⟨hab, hba⟩ := hcommon
  -- the larger of the two starts is in both
  refine hnot (max a.start b.start) ⟨Nat.le_max_left _ _, ?_⟩ ⟨Nat.le_max_right _ _, ?_⟩
  all_goals
    unfold Region.stop at hab hba ⊢
    omega

/-- Fresh memory is apart from what lies in granted memory. -/
theorem Fresh.apart_covered {granted : List Region} {g r : Region} (hfresh : Fresh granted g)
    (hg : 0 < g.size) (hr : 0 < r.size) (hcovered : Covered granted r) : g.Apart r := by
  refine apart_of_not_has hg hr fun x hx hrx => ?_
  obtain ⟨o, ho, hox⟩ := hcovered x hrx
  exact (hfresh.apart o ho).not_has hx hox

/-! ## The invariant -/

/-- The blocks of the classes. -/
def cachedBlocks (lists : ℕ → List ℕ) : List Region :=
  Region.cached blockSize classes lists

/-- An allocation suits its layout and lies in memory that was granted. -/
structure Placed (ledger : Ledger σ) (s : σ) (b : ℕ × Layout) : Prop where
  aligned : b.2.align ∣ b.1
  fits : b.2.size ≤ (block b).size
  pos : 0 < (block b).size
  nonnull : b.1 ≠ 0
  ofClass : ∀ k, sizeClass b.2 = some k → blockSize k ∣ b.1 ∧ Covered (ledger.grown s) (block b)
  ofLarge : sizeClass b.2 = none → block b ∈ ledger.mapped s ∧
    largeSize b.2 = some (block b).size

structure Inv (ledger : Ledger σ) (h : Heap σ) (lists : ℕ → List ℕ) (held : List (ℕ × Layout)) :
    Prop where
  apart : (held.map block ++ (cachedBlocks lists ++ h.unused)).Pairwise Region.Apart
  placed : ∀ b ∈ held, Placed ledger h.source b
  threads : ∀ k < classes, h.memory.Threads (h.free k) (lists k)
  multiple : ∀ k < classes, ∀ x ∈ lists k, blockSize k ∣ x
  inGrown : ∀ r ∈ cachedBlocks lists ++ h.unused, Covered (ledger.grown h.source) r
  granted : (ledger.granted h.source).Pairwise Region.Apart
  top : ∀ g ∈ ledger.granted h.source, g.stop + large ≤ wordLimit
  bump_le : h.bump ≤ h.stop
  bump_pos : 0 < h.stop → 0 < h.bump
  stop_le : h.stop + large ≤ wordLimit

theorem Placed.covered {s : σ} {b : ℕ × Layout} (hplaced : Placed ledger s b) :
    Covered (ledger.granted s) (block b) := by
  cases hclass : sizeClass b.2 with
  | some k => exact (hplaced.ofClass k hclass).2.mono fun g hg => List.mem_append_left _ hg
  | none =>
    exact fun x hx => ⟨block b, List.mem_append_right _ (hplaced.ofLarge hclass).1, hx⟩

/-- More memory may be granted. -/
theorem Placed.mono {s s' : σ} {b : ℕ × Layout} (hplaced : Placed ledger s b)
    (hgrown : ∀ g ∈ ledger.grown s, g ∈ ledger.grown s')
    (hmapped : ∀ g ∈ ledger.mapped s, g ∈ ledger.mapped s') : Placed ledger s' b where
  aligned := hplaced.aligned
  fits := hplaced.fits
  pos := hplaced.pos
  nonnull := hplaced.nonnull
  ofClass := fun k hk => ⟨(hplaced.ofClass k hk).1, (hplaced.ofClass k hk).2.mono hgrown⟩
  ofLarge := fun hnone => ⟨hmapped _ (hplaced.ofLarge hnone).1, (hplaced.ofLarge hnone).2⟩

theorem Inv.perm {held' : List (ℕ × Layout)} (hinv : Inv ledger h lists held)
    (hperm : held.Perm held') : Inv ledger h lists held' where
  apart := ((hperm.map block).append_right _).pairwise hinv.apart Region.Apart.symm
  placed := fun b hb => hinv.placed b (hperm.mem_iff.mpr hb)
  threads := hinv.threads
  multiple := hinv.multiple
  inGrown := hinv.inGrown
  granted := hinv.granted
  top := hinv.top
  bump_le := hinv.bump_le
  bump_pos := hinv.bump_pos
  stop_le := hinv.stop_le

/-- A block of a class is on its list. -/
theorem mem_cachedBlocks (hk : k < classes) (hx : x ∈ lists k) :
    (⟨x, blockSize k⟩ : Region) ∈ cachedBlocks lists :=
  Region.mem_cached.mpr ⟨k, hk, x, hx, rfl⟩

theorem size_pos_of_mem {r : Region} (hr : r ∈ cachedBlocks lists ++ h.unused) : 0 < r.size := by
  rcases List.mem_append.mp hr with hr | hr
  · obtain ⟨k, -, x, -, rfl⟩ := Region.mem_cached.mp hr
    exact lt_of_lt_of_le (by decide) (blockSize_ge k)
  · unfold Heap.unused at hr
    split_ifs at hr with hlt
    · rw [List.mem_singleton.mp hr]
      exact Nat.sub_pos_of_lt hlt
    · cases hr

/-- Everything the heap knows of lies in granted memory. -/
theorem Inv.covered (hinv : Inv ledger h lists held) {r : Region}
    (hr : r ∈ held.map block ++ (cachedBlocks lists ++ h.unused)) :
    0 < r.size ∧ Covered (ledger.granted h.source) r := by
  rcases List.mem_append.mp hr with hr | hr
  · obtain ⟨b, hb, rfl⟩ := List.mem_map.mp hr
    exact ⟨(hinv.placed b hb).pos, (hinv.placed b hb).covered⟩
  · exact ⟨size_pos_of_mem hr, (hinv.inGrown r hr).mono fun g hg => List.mem_append_left _ hg⟩

/-! ## The class lists -/

/-- A held block is apart from the free blocks. -/
theorem Inv.apart_cached (hinv : Inv ledger h lists held) {b : ℕ × Layout} (hb : b ∈ held)
    (hk : k < classes) (hx : x ∈ lists k) : (block b).Apart ⟨x, blockSize k⟩ :=
  (List.pairwise_append.mp hinv.apart).2.2 _ (List.mem_map_of_mem hb) _
    (List.mem_append_left _ (mem_cachedBlocks hk hx))

theorem word_within : (⟨x, 8⟩ : Region).Within (⟨x, blockSize k⟩ : Region).start
    (⟨x, blockSize k⟩ : Region).stop := by
  have hge := blockSize_ge k
  refine ⟨Nat.le_refl _, ?_⟩
  unfold Region.stop
  dsimp only
  omega

theorem has_of_lt {i : ℕ} (hi : i < 8) : (⟨x, 8⟩ : Region).Has (x + i) :=
  ⟨Nat.le_add_right _ _, Nat.add_lt_add_left hi _⟩

/-- A write that leaves the links alone. -/
theorem Inv.write (hinv : Inv ledger h lists held) {memory : Memory}
    (hsame : ∀ k < classes, ∀ x ∈ lists k, ∀ i < 8, memory (x + i) = h.memory (x + i)) :
    Inv ledger { h with memory } lists held where
  apart := hinv.apart
  placed := hinv.placed
  threads := fun k hk => (hinv.threads k hk).congr (hsame k hk)
  multiple := hinv.multiple
  inGrown := hinv.inGrown
  granted := hinv.granted
  top := hinv.top
  bump_le := hinv.bump_le
  bump_pos := hinv.bump_pos
  stop_le := hinv.stop_le

theorem Inv.head_lt (hinv : Inv ledger h lists held) (hk : k < classes) : h.free k < 2 ^ 64 := by
  rcases (hinv.threads k hk).head with hzero | hmem
  · rw [hzero]
    decide
  · -- a block on a list is in granted memory
    have hge := blockSize_ge k
    obtain ⟨g, hg, hhas⟩ := hinv.inGrown _ (List.mem_append_left _ (mem_cachedBlocks hk hmem))
      (h.free k) ⟨Nat.le_refl _, Nat.lt_add_of_pos_right (by dsimp only; omega)⟩
    have htop := hinv.top g (List.mem_append_left _ hg)
    have hlt := hhas.2
    have hlimit : wordLimit = 2 ^ 64 := rfl
    omega

/-- A held block of a class goes on its list. -/
theorem Inv.push {layout : Layout} (hinv : Inv ledger h lists ((x, layout) :: held))
    (hclass : sizeClass layout = some k) :
    Inv ledger { h with
        memory := h.memory.writeWord x (h.free k)
        free := Function.update h.free k x } (Function.update lists k (x :: lists k)) held := by
  obtain ⟨hk, -, -⟩ := sizeClass_some hclass
  have hplaced := hinv.placed (x, layout) List.mem_cons_self
  obtain ⟨hdvd, hcovered⟩ := hplaced.ofClass k hclass
  have hblock : block (x, layout) = ⟨x, blockSize k⟩ := block_of_class hclass
  have hword : ∀ j < classes, ∀ y ∈ lists j, Region.Apart ⟨x, 8⟩ ⟨y, 8⟩ := fun j hj y hy => by
    have hapart := hinv.apart_cached List.mem_cons_self hj hy
    rw [hblock] at hapart
    exact ((hapart.mono word_within).symm.mono word_within).symm
  have hpush : (cachedBlocks (Function.update lists k (x :: lists k))).Perm
      (⟨x, blockSize k⟩ :: cachedBlocks lists) := Region.cached_push hk x
  refine ⟨?_, fun b hb => hinv.placed b (List.mem_cons_of_mem _ hb), fun j hj => ?_, fun j hj y hy => ?_,
    fun r hr => ?_, hinv.granted, hinv.top, hinv.bump_le, hinv.bump_pos, hinv.stop_le⟩
  · refine List.Perm.pairwise ?_ hinv.apart Region.Apart.symm
    rw [List.map_cons, hblock]
    refine List.perm_middle.symm.trans (List.Perm.append_left _ ?_)
    exact (hpush.append_right _).symm
  · rcases eq_or_ne j k with rfl | hjk
    · have hthreads := (hinv.threads j hj).push (hinv.head_lt hj) hplaced.nonnull (hword j hj)
      simpa using hthreads
    · simp only [Function.update_of_ne hjk]
      refine (hinv.threads j hj).congr fun y hy i hi => Memory.writeWord_of_not_has ?_
      exact (hword j hj y hy).symm.not_has (has_of_lt hi)
  · rcases eq_or_ne j k with rfl | hjk
    · rw [Function.update_self] at hy
      rcases List.mem_cons.mp hy with rfl | hy
      · exact hdvd
      · exact hinv.multiple j hj y hy
    · rw [Function.update_of_ne hjk] at hy
      exact hinv.multiple j hj y hy
  · rcases List.mem_append.mp hr with hr | hr
    · rcases List.mem_cons.mp (hpush.mem_iff.mp hr) with rfl | hr
      · rwa [← hblock]
      · exact hinv.inGrown r (List.mem_append_left _ hr)
    · exact hinv.inGrown r (List.mem_append_right _ hr)

/-- An address that is a multiple of a class's block size, in memory the heap has grown by, suits the
class's layouts. -/
theorem Placed.of_class {s : σ} {layout : Layout} (hclass : sizeClass layout = some k)
    (hdvd : blockSize k ∣ x) (hne : x ≠ 0) (hcovered : Covered (ledger.grown s) ⟨x, blockSize k⟩) :
    Placed ledger s (x, layout) := by
  obtain ⟨-, hsize, halign⟩ := sizeClass_some hclass
  have hblock : block (x, layout) = ⟨x, blockSize k⟩ := block_of_class hclass
  refine ⟨Nat.dvd_trans halign hdvd, ?_, ?_, hne, fun j hj => ?_, fun hnone => ?_⟩
  · rw [hblock]
    exact hsize
  · rw [hblock]
    exact lt_of_lt_of_le (by decide) (blockSize_ge k)
  · cases hclass.symm.trans hj
    rw [hblock]
    exact ⟨hdvd, hcovered⟩
  · cases hclass.symm.trans hnone

/-- The first free block of a class is handed out. -/
theorem Inv.pop {layout : Layout} (hinv : Inv ledger h lists held)
    (hclass : sizeClass layout = some k) (hne : h.free k ≠ 0) :
    ∃ lists', Inv ledger { h with
        free := Function.update h.free k (h.memory.readWord (h.free k)) } lists'
      ((h.free k, layout) :: held) := by
  obtain ⟨hk, -, -⟩ := sizeClass_some hclass
  obtain ⟨l, hl, hthreads⟩ := (hinv.threads k hk).pop hne
  have hmem : h.free k ∈ lists k := by
    rw [hl]
    exact List.mem_cons_self
  have hblock : block (h.free k, layout) = ⟨h.free k, blockSize k⟩ := block_of_class hclass
  have hpop : (cachedBlocks lists).Perm
      (⟨h.free k, blockSize k⟩ :: cachedBlocks (Function.update lists k l)) := Region.cached_pop hk hl
  refine ⟨Function.update lists k l, ?_, fun b hb => ?_, fun j hj => ?_, fun j hj y hy => ?_,
    fun r hr => ?_, hinv.granted, hinv.top, hinv.bump_le, hinv.bump_pos, hinv.stop_le⟩
  · refine List.Perm.pairwise ?_ hinv.apart Region.Apart.symm
    rw [List.map_cons, hblock]
    refine (List.Perm.append_left _ (hpop.append_right _)).trans ?_
    exact List.perm_middle
  · rcases List.mem_cons.mp hb with rfl | hb
    · exact .of_class hclass (hinv.multiple k hk _ hmem) hne
        (hinv.inGrown _ (List.mem_append_left _ (mem_cachedBlocks hk hmem)))
    · exact hinv.placed b hb
  · rcases eq_or_ne j k with rfl | hjk
    · simpa using hthreads
    · simpa [hjk] using hinv.threads j hj
  · rcases eq_or_ne j k with rfl | hjk
    · rw [Function.update_self] at hy
      exact hinv.multiple j hj y (hl ▸ List.mem_cons_of_mem _ hy)
    · rw [Function.update_of_ne hjk] at hy
      exact hinv.multiple j hj y hy
  · refine hinv.inGrown r ?_
    rcases List.mem_append.mp hr with hr | hr
    · exact List.mem_append_left _ (hpop.mem_iff.mpr (List.mem_cons_of_mem _ hr))
    · exact List.mem_append_right _ hr

/-! ## The unused part of the heap -/

theorem pairwise_unused (h : Heap σ) : h.unused.Pairwise Region.Apart := by
  unfold Heap.unused
  split_ifs
  · exact List.pairwise_singleton _ _
  · exact List.Pairwise.nil

/-- A block is carved off the unused part. -/
theorem Inv.carve_fits {layout : Layout} (hinv : Inv ledger h lists held)
    (hclass : sizeClass layout = some k)
    (hfits : roundUp h.bump (blockSize k) + blockSize k ≤ h.stop) :
    roundUp h.bump (blockSize k) ≠ 0 ∧
      Inv ledger { h with bump := roundUp h.bump (blockSize k) + blockSize k } lists
        ((roundUp h.bump (blockSize k), layout) :: held) := by
  have hge := blockSize_ge k
  have hsize : 0 < blockSize k := by omega
  have hstart : h.bump ≤ roundUp h.bump (blockSize k) := le_roundUp hsize
  have hbump := hinv.bump_pos (by omega)
  generalize hs : roundUp h.bump (blockSize k) = start at hfits hstart ⊢
  have hdvd : blockSize k ∣ start := hs ▸ dvd_roundUp
  have hne : start ≠ 0 := by omega
  have hunused : h.unused = [⟨h.bump, h.stop - h.bump⟩] := if_pos (by omega)
  have hblock : block (start, layout) = ⟨start, blockSize k⟩ := block_of_class hclass
  have hmem : (⟨h.bump, h.stop - h.bump⟩ : Region) ∈ cachedBlocks lists ++ h.unused := by
    rw [hunused]
    exact List.mem_append_right _ List.mem_cons_self
  have hinside : (⟨start, blockSize k⟩ : Region).Within h.bump (h.bump + (h.stop - h.bump)) := by
    refine ⟨hstart, ?_⟩
    unfold Region.stop
    dsimp only
    omega
  -- what is left of the unused part
  have hrest : ∀ r ∈ ({ h with bump := start + blockSize k } : Heap σ).unused,
      r.Within h.bump (h.bump + (h.stop - h.bump)) ∧ Region.Apart ⟨start, blockSize k⟩ r := by
    intro r hr
    unfold Heap.unused at hr
    dsimp only at hr
    split_ifs at hr with hlt
    · rw [List.mem_singleton.mp hr]
      refine ⟨⟨?_, ?_⟩, Or.inl (Nat.le_refl _)⟩
      · dsimp only
        omega
      · unfold Region.stop
        dsimp only
        omega
    · cases hr
  have hinv' := hinv.apart
  rw [hunused, ← List.append_assoc] at hinv'
  obtain ⟨hold, -, hcross⟩ := List.pairwise_append.mp hinv'
  have hcross' : ∀ r ∈ held.map block ++ cachedBlocks lists,
      Region.Apart ⟨h.bump, h.stop - h.bump⟩ r := fun r hr =>
    (hcross r hr _ List.mem_cons_self).symm
  have hwhole : Region.stop ⟨h.bump, h.stop - h.bump⟩ = h.bump + (h.stop - h.bump) := rfl
  refine ⟨hne, ?_, fun b hb => ?_, hinv.threads, hinv.multiple, fun r hr => ?_, hinv.granted, hinv.top,
    hfits, fun _ => by dsimp only; omega, hinv.stop_le⟩
  · rw [List.map_cons, hblock, List.cons_append, ← List.append_assoc]
    refine List.pairwise_cons.mpr ⟨fun r hr => ?_, List.pairwise_append.mpr ⟨hold, ?_, ?_⟩⟩
    · rcases List.mem_append.mp hr with hr | hr
      · exact (hcross' r hr).mono hinside
      · exact (hrest r hr).2
    · exact pairwise_unused _
    · exact fun o ho r hr => ((hcross' o ho).mono (hrest r hr).1).symm
  · rcases List.mem_cons.mp hb with rfl | hb
    · exact .of_class hclass hdvd hne ((hinv.inGrown _ hmem).within hinside)
    · exact hinv.placed b hb
  · rcases List.mem_append.mp hr with hr | hr
    · exact hinv.inGrown r (List.mem_append_left _ hr)
    · exact (hinv.inGrown _ hmem).within (hrest r hr).1

/-- The heap grows: by a part behind the unused one, or by a part elsewhere that replaces it. -/
theorem Inv.grow (hinv : Inv ledger h lists held) {new wanted : ℕ} {source : σ}
    (hwanted : 0 < wanted) (hfresh : Fresh (ledger.granted h.source) ⟨new, wanted⟩)
    (hgrown : ledger.grown source = ⟨new, wanted⟩ :: ledger.grown h.source)
    (hmapped : ledger.mapped source = ledger.mapped h.source) :
    Inv ledger { h with
      source := source
      bump := if new ≠ h.stop then new else h.bump
      stop := new + wanted } lists held := by
  have hnew : new ≠ 0 := hfresh.nonnull
  have hsub : ∀ g ∈ ledger.grown h.source, g ∈ ledger.grown source := fun g hg => by
    rw [hgrown]
    exact List.mem_cons_of_mem _ hg
  have hgranted : ledger.granted source = ⟨new, wanted⟩ :: ledger.granted h.source := by
    rw [Ledger.granted, hgrown, hmapped]
    rfl
  have hbump : (if new ≠ h.stop then new else h.bump) ≤ new := by
    have hle := hinv.bump_le
    split_ifs with heq
    · exact Nat.le_refl _
    · omega
  -- addresses of the new unused part are in the new memory or were unused before
  have hunused : ∀ r ∈ ({ h with
      source := source
      bump := if new ≠ h.stop then new else h.bump
      stop := new + wanted } : Heap σ).unused, 0 < r.size ∧
      ∀ x, r.Has x → (⟨new, wanted⟩ : Region).Has x ∨ ∃ o ∈ h.unused, o.Has x := by
    intro r hr
    unfold Heap.unused at hr
    dsimp only at hr
    rw [if_pos (by omega)] at hr
    rw [List.mem_singleton.mp hr]
    refine ⟨by dsimp only; omega, fun x hx => ?_⟩
    obtain ⟨hlo, hhi⟩ := hx
    unfold Region.stop at hhi
    dsimp only at hlo hhi
    by_cases hbehind : new ≤ x
    · left
      refine ⟨hbehind, ?_⟩
      unfold Region.stop
      dsimp only
      omega
    · right
      have hcontiguous : new = h.stop := by
        by_contra hne
        rw [if_pos hne] at hlo
        omega
      rw [if_neg (by simpa using hcontiguous)] at hlo
      refine ⟨⟨h.bump, h.stop - h.bump⟩, ?_, hlo, ?_⟩
      · unfold Heap.unused
        rw [if_pos (by omega)]
        exact List.mem_cons_self
      · unfold Region.stop
        dsimp only
        omega
  have hold := hinv.apart
  rw [← List.append_assoc] at hold
  obtain ⟨hold, -, hcross⟩ := List.pairwise_append.mp hold
  refine ⟨?_, fun b hb => (hinv.placed b hb).mono hsub (by rw [hmapped]; exact fun g hg => hg),
    hinv.threads, hinv.multiple, fun r hr => ?_, ?_, fun g hg => ?_, ?_, fun _ => ?_, hfresh.below⟩
  · rw [← List.append_assoc]
    refine List.pairwise_append.mpr ⟨hold, ?_, fun o ho r hr => ?_⟩
    · exact pairwise_unused _
    · -- nothing else is in the new memory or in the part that was unused
      have ho' : o ∈ held.map block ++ (cachedBlocks lists ++ h.unused) := by
        rw [← List.append_assoc]
        exact List.mem_append_left _ ho
      obtain ⟨hpos, hcovered⟩ := hinv.covered ho'
      refine apart_of_not_has hpos (hunused r hr).1 fun x hox hrx => ?_
      rcases (hunused r hr).2 x hrx with hx | ⟨u, hu, hx⟩
      · exact (hfresh.apart_covered hwanted hpos hcovered).not_has hx hox
      · exact (hcross o ho u hu).not_has hox hx
  · rcases List.mem_append.mp hr with hr | hr
    · exact (hinv.inGrown r (List.mem_append_left _ hr)).mono hsub
    · intro x hx
      rcases (hunused r hr).2 x hx with hx | ⟨u, hu, hx⟩
      · refine ⟨_, ?_, hx⟩
        dsimp only
        rw [hgrown]
        exact List.mem_cons_self
      · exact (hinv.inGrown u (List.mem_append_right _ hu)).mono hsub x hx
  · dsimp only
    rw [hgranted]
    exact List.pairwise_cons.mpr ⟨hfresh.apart, hinv.granted⟩
  · dsimp only at hg
    rw [hgranted] at hg
    rcases List.mem_cons.mp hg with rfl | hg
    · exact hfresh.below
    · exact hinv.top g hg
  · exact Nat.le_trans hbump (Nat.le_add_right _ _)
  · dsimp only
    split_ifs with hne
    · omega
    · refine hinv.bump_pos ?_
      have heq : new = h.stop := by simpa using hne
      omega

/-- Nothing but the source's own state changes. -/
theorem Inv.refused (hinv : Inv ledger h lists held) {source : σ}
    (hgrown : ledger.grown source = ledger.grown h.source)
    (hmapped : ledger.mapped source = ledger.mapped h.source) :
    Inv ledger { h with source } lists held := by
  have hgranted : ledger.granted source = ledger.granted h.source := by
    rw [Ledger.granted, Ledger.granted, hgrown, hmapped]
  refine ⟨hinv.apart, fun b hb => (hinv.placed b hb).mono ?_ ?_, hinv.threads, hinv.multiple, ?_, ?_, ?_,
    hinv.bump_le, hinv.bump_pos, hinv.stop_le⟩
  · rw [hgrown]
    exact fun g hg => hg
  · rw [hmapped]
    exact fun g hg => hg
  · dsimp only
    rw [hgrown]
    exact hinv.inGrown
  · dsimp only
    rw [hgranted]
    exact hinv.granted
  · dsimp only
    rw [hgranted]
    exact hinv.top

/-- `carve` fails or hands out a fresh block. -/
theorem Inv.carve (hsrc : src.Honest ledger) {layout : Layout} (hinv : Inv ledger h lists held)
    (hclass : sizeClass layout = some k) :
    ∃ p h', h.carve src k = (p, h') ∧ h'.memory = h.memory ∧
      (p = 0 ∧ Inv ledger h' lists held ∨ p ≠ 0 ∧ Inv ledger h' lists ((p, layout) :: held)) := by
  have hge := blockSize_ge k
  obtain ⟨hk, -, -⟩ := sizeClass_some hclass
  unfold Heap.carve
  dsimp only
  by_cases hfits : h.fits (roundUp h.bump (blockSize k)) (blockSize k)
  · rw [if_pos hfits]
    have hle : roundUp h.bump (blockSize k) + blockSize k ≤ h.stop := by
      unfold Heap.fits at hfits
      split at hfits
      · next stop hadd =>
        obtain ⟨rfl, -⟩ := checkedAdd_eq_some hadd
        exact of_decide_eq_true hfits
      · cases hfits
    obtain ⟨hne, hinv'⟩ := hinv.carve_fits hclass hle
    exact ⟨_, _, rfl, rfl, Or.inr ⟨hne, hinv'⟩⟩
  · rw [if_neg hfits]
    have hwanted : 0 < max (2 * blockSize k) growth := by omega
    cases hgrow : src.grow h.source (max (2 * blockSize k) growth) with
    | mk answer source =>
      cases answer with
      | none =>
        obtain ⟨hgrown, hmapped⟩ := hsrc.grow_none _ _ _ hgrow
        exact ⟨0, _, rfl, rfl, Or.inl ⟨rfl, hinv.refused hgrown hmapped⟩⟩
      | some new =>
        obtain ⟨hfresh, hgrown, hmapped⟩ := hsrc.grow_some _ _ _ _ hwanted hgrow
        have hgrown' := hinv.grow hwanted hfresh hgrown hmapped
        -- room for two blocks is room for one wherever the unused part starts
        have hle : roundUp (if new ≠ h.stop then new else h.bump) (blockSize k) + blockSize k ≤
            new + max (2 * blockSize k) growth := by
          have hlt : roundUp (if new ≠ h.stop then new else h.bump) (blockSize k) <
            (if new ≠ h.stop then new else h.bump) + blockSize k := roundUp_lt (by omega)
          have hbump : (if new ≠ h.stop then new else h.bump) ≤ new := by
            have hbump_le := hinv.bump_le
            split_ifs with hne
            · exact Nat.le_refl _
            · omega
          omega
        obtain ⟨hne, hinv'⟩ := hgrown'.carve_fits hclass hle
        exact ⟨_, _, rfl, rfl, Or.inr ⟨hne, hinv'⟩⟩

/-! ## Large blocks -/

/-- A fresh mapping is handed out. -/
theorem Inv.map {layout : Layout} {a : ℕ} {source : σ} (hinv : Inv ledger h lists held)
    (hclass : sizeClass layout = none) (halign : layout.align ∣ a)
    (hsize : layout.size ≤ layoutSize layout)
    (hlarge : largeSize layout = some (layoutSize layout)) (hpos : 0 < layoutSize layout)
    (hfresh : Fresh (ledger.granted h.source) (block (a, layout)))
    (hgrown : ledger.grown source = ledger.grown h.source)
    (hmapped : ledger.mapped source = block (a, layout) :: ledger.mapped h.source) :
    Inv ledger { h with source } lists ((a, layout) :: held) := by
  have hgranted : (ledger.granted source).Perm (block (a, layout) :: ledger.granted h.source) := by
    rw [Ledger.granted, hgrown, hmapped]
    exact List.perm_middle
  refine ⟨?_, fun b hb => ?_, hinv.threads, hinv.multiple, ?_, ?_, fun g hg => ?_,
    hinv.bump_le, hinv.bump_pos, hinv.stop_le⟩
  · rw [List.map_cons, List.cons_append]
    refine List.pairwise_cons.mpr ⟨fun r hr => ?_, hinv.apart⟩
    obtain ⟨hr', hcovered⟩ := hinv.covered hr
    exact hfresh.apart_covered hpos hr' hcovered
  · rcases List.mem_cons.mp hb with rfl | hb
    · refine ⟨halign, hsize, hpos, hfresh.nonnull, fun k hk => ?_, fun _ => ⟨?_, hlarge⟩⟩
      · cases hclass.symm.trans hk
      · dsimp only
        rw [hmapped]
        exact List.mem_cons_self
    · refine (hinv.placed b hb).mono ?_ ?_
      · rw [hgrown]
        exact fun g hg => hg
      · rw [hmapped]
        exact fun g hg => List.mem_cons_of_mem _ hg
  · dsimp only
    rw [hgrown]
    exact hinv.inGrown
  · refine hgranted.symm.pairwise ?_ Region.Apart.symm
    exact List.pairwise_cons.mpr ⟨hfresh.apart, hinv.granted⟩
  · rcases List.mem_cons.mp (hgranted.mem_iff.mp hg) with rfl | hg
    · exact hfresh.below
    · exact hinv.top g hg

/-- A held mapping is given back. -/
theorem Inv.unmap {b : ℕ × Layout} {source : σ} (hinv : Inv ledger h lists (b :: held))
    (hgrown : ledger.grown source = ledger.grown h.source)
    (hmapped : ledger.mapped source = (ledger.mapped h.source).erase (block b)) :
    Inv ledger { h with source } lists held := by
  obtain ⟨hhead, htail⟩ := List.pairwise_cons.mp hinv.apart
  have hsub : (ledger.granted source).Sublist (ledger.granted h.source) := by
    rw [Ledger.granted, Ledger.granted, hgrown, hmapped]
    exact List.Sublist.append_left List.erase_sublist _
  refine ⟨htail, fun o ho => ?_, hinv.threads, hinv.multiple, ?_, hinv.granted.sublist hsub,
    fun g hg => hinv.top g (hsub.subset hg), hinv.bump_le, hinv.bump_pos, hinv.stop_le⟩
  · have hplaced := hinv.placed o (List.mem_cons_of_mem _ ho)
    refine ⟨hplaced.aligned, hplaced.fits, hplaced.pos, hplaced.nonnull, fun k hk => ?_, fun hnone => ?_⟩
    · dsimp only
      rw [hgrown]
      exact hplaced.ofClass k hk
    · -- another large block is another mapping
      obtain ⟨hmem, hsize⟩ := hplaced.ofLarge hnone
      have hapart := hhead (block o) (List.mem_append_left _ (List.mem_map_of_mem ho))
      have hne : block o ≠ block b := by
        intro heq
        have hpos := hplaced.pos
        rw [heq] at hapart hpos
        unfold Region.Apart Region.stop at hapart
        omega
      refine ⟨?_, hsize⟩
      dsimp only
      rw [hmapped]
      exact (List.mem_erase_of_ne hne).mpr hmem
  · dsimp only
    rw [hgrown]
    exact hinv.inGrown

/-! ## Operations -/

/-- A layout without a class is mapped. -/
theorem Heap.alloc_of_none {layout : Layout} {bytes : ℕ} (hclass : sizeClass layout = none)
    (halign : ¬ layout.align > page) (hlarge : largeSize layout = some bytes) :
    h.alloc src layout = ((src.map h.source bytes).1.getD 0,
      { h with source := (src.map h.source bytes).2 }) := by
  simp only [Heap.alloc, hclass, if_neg halign, hlarge]

/-- A mapping that was asked for is refused or handed out. -/
theorem Inv.alloc_large (hsrc : src.Honest ledger) (hinv : Inv ledger h lists held) {layout : Layout}
    {bytes : ℕ} (hclass : sizeClass layout = none) (halign : ¬ layout.align > page)
    (hlarge : largeSize layout = some bytes) :
    ∃ p h', h.alloc src layout = (p, h') ∧ h'.memory = h.memory ∧
      (p = 0 ∧ Inv ledger h' lists held ∨ p ≠ 0 ∧ Inv ledger h' lists ((p, layout) :: held)) := by
  have hbytes := largeSize_some hlarge
  have hsize : layoutSize layout = bytes := by
    unfold layoutSize
    rw [hclass, hlarge]
    rfl
  have hpage : 0 < page := by decide
  have hle : layout.size ≤ bytes := hbytes ▸ le_roundUp hpage
  have hpos : 0 < bytes := lt_of_lt_of_le (size_pos_of_none hclass (Nat.le_of_not_gt halign)) hle
  rw [Heap.alloc_of_none hclass halign hlarge]
  cases hmap : src.map h.source bytes with
  | mk answer source =>
    cases answer with
    | none =>
      obtain ⟨hgrown, hmapped⟩ := hsrc.map_none _ _ _ hmap
      exact ⟨0, _, rfl, rfl, Or.inl ⟨rfl, hinv.refused hgrown hmapped⟩⟩
    | some a =>
      obtain ⟨hfresh, ha, hgrown, hmapped⟩ := hsrc.map_some _ _ _ _ hpos (hbytes ▸ dvd_roundUp) hmap
      have hdvd : layout.align ∣ page := align_dvd (k := 12) (Nat.le_of_not_gt halign)
      have hblock : (⟨a, bytes⟩ : Region) = block (a, layout) := by rw [block, hsize]
      rw [hblock] at hfresh hmapped
      refine ⟨a, _, rfl, rfl, Or.inr ⟨hfresh.nonnull, hinv.map hclass (Nat.dvd_trans hdvd ha) ?_ ?_ ?_
        hfresh hgrown hmapped⟩⟩
      · rwa [hsize]
      · rw [hsize]
        exact hlarge
      · rwa [hsize]

/-- `alloc` fails, or hands out a block that is from then on held; memory stays as it is. -/
theorem Inv.alloc (hsrc : src.Honest ledger) (hinv : Inv ledger h lists held) (layout : Layout) :
    ∃ p h' lists', h.alloc src layout = (p, h') ∧ h'.memory = h.memory ∧
      (p = 0 ∧ Inv ledger h' lists' held ∨ p ≠ 0 ∧ Inv ledger h' lists' ((p, layout) :: held)) := by
  cases hclass : sizeClass layout with
  | some k =>
    by_cases hhead : h.free k = 0
    · obtain ⟨p, h', heq, hmemory, hcases⟩ := hinv.carve hsrc hclass
      refine ⟨p, h', lists, ?_, hmemory, hcases⟩
      simp only [Heap.alloc, hclass, if_pos hhead, heq]
    · obtain ⟨lists', hinv'⟩ := hinv.pop hclass hhead
      refine ⟨h.free k, { h with free := Function.update h.free k (h.memory.readWord (h.free k)) },
        lists', ?_, rfl, Or.inr ⟨hhead, hinv'⟩⟩
      simp only [Heap.alloc, hclass, if_neg hhead]
  | none =>
    by_cases halign : layout.align > page
    · refine ⟨0, h, lists, ?_, rfl, Or.inl ⟨rfl, hinv⟩⟩
      simp only [Heap.alloc, hclass, if_pos halign]
    · cases hlarge : largeSize layout with
      | none =>
        refine ⟨0, h, lists, ?_, rfl, Or.inl ⟨rfl, hinv⟩⟩
        simp only [Heap.alloc, hclass, if_neg halign, hlarge]
      | some bytes =>
        obtain ⟨p, h', heq, hmemory, hcases⟩ := hinv.alloc_large hsrc hclass halign hlarge
        exact ⟨p, h', lists, heq, hmemory, hcases⟩

/-- `dealloc` takes a block back under the size it was handed out with, and writes nowhere else. -/
theorem Inv.dealloc (hsrc : src.Honest ledger) {b : ℕ × Layout}
    (hinv : Inv ledger h lists (b :: held)) :
    (∃ lists', Inv ledger (h.dealloc src b.1 b.2) lists' held) ∧
      ∀ x, ¬ (block b).Has x → (h.dealloc src b.1 b.2).memory x = h.memory x := by
  obtain ⟨address, layout⟩ := b
  unfold Heap.dealloc
  dsimp only
  cases hclass : sizeClass layout with
  | some k =>
    refine ⟨⟨_, hinv.push hclass⟩, fun x hx => Memory.writeWord_of_not_has fun hword => hx ?_⟩
    rw [block_of_class hclass]
    have hge := blockSize_ge k
    refine ⟨hword.1, lt_of_lt_of_le hword.2 ?_⟩
    unfold Region.stop
    dsimp only
    omega
  | none =>
    obtain ⟨hmem, hlarge⟩ := (hinv.placed _ List.mem_cons_self).ofLarge hclass
    dsimp only at hlarge
    rw [hlarge]
    obtain ⟨hgrown, hmapped⟩ := hsrc.unmap _ _ _ hmem
    exact ⟨⟨lists, hinv.unmap hgrown hmapped⟩, fun x _ => rfl⟩

/-- A block that stays in place has room for every layout of its class. -/
theorem Inv.relabel {layout newLayout : Layout} (hinv : Inv ledger h lists ((x, layout) :: held))
    (hclass : sizeClass layout = some k) (hclass' : sizeClass newLayout = some k) :
    Inv ledger h lists ((x, newLayout) :: held) := by
  have hplaced := hinv.placed _ List.mem_cons_self
  have hblock : block (x, newLayout) = block (x, layout) := by
    rw [block_of_class hclass, block_of_class hclass']
  obtain ⟨hdvd, hcovered⟩ := hplaced.ofClass k hclass
  rw [block_of_class hclass] at hcovered
  refine ⟨?_, fun b hb => ?_, hinv.threads, hinv.multiple, hinv.inGrown, hinv.granted, hinv.top,
    hinv.bump_le, hinv.bump_pos, hinv.stop_le⟩
  · have hapart := hinv.apart
    rw [List.map_cons] at hapart ⊢
    rwa [hblock]
  · rcases List.mem_cons.mp hb with rfl | hb
    · exact .of_class hclass' hdvd hplaced.nonnull hcovered
    · exact hinv.placed b (List.mem_cons_of_mem _ hb)

/-- `realloc` fails and changes no byte, or moves the block's contents to where the new block is. -/
theorem Inv.realloc (hsrc : src.Honest ledger) {address : ℕ} {layout : Layout}
    (hinv : Inv ledger h lists ((address, layout) :: held)) (newSize : ℕ) :
    ∃ p h' lists', h.realloc src address layout newSize = (p, h') ∧
      (p = 0 ∧ h'.memory = h.memory ∧ Inv ledger h' lists' ((address, layout) :: held) ∨
        p ≠ 0 ∧ (∀ i < min layout.size newSize, h'.memory (p + i) = h.memory (address + i)) ∧
        ∃ newLayout, fromSizeLog newSize layout.log = some newLayout ∧
          Inv ledger h' lists' ((p, newLayout) :: held)) := by
  have hplaced := hinv.placed _ List.mem_cons_self
  unfold Heap.realloc
  cases hnew : fromSizeLog newSize layout.log with
  | none => exact ⟨0, h, lists, rfl, Or.inl ⟨rfl, rfl, hinv⟩⟩
  | some newLayout =>
    obtain ⟨hsize, -⟩ := fromSizeLog_some hnew
    dsimp only
    by_cases hsame : (sizeClass layout).isSome ∧ sizeClass layout = sizeClass newLayout
    · obtain ⟨k, hclass⟩ := Option.isSome_iff_exists.mp hsame.1
      exact ⟨address, h, lists, if_pos hsame, Or.inr ⟨hplaced.nonnull, fun i _ => rfl, newLayout, rfl,
        hinv.relabel hclass (hsame.2 ▸ hclass)⟩⟩
    · rw [if_neg hsame]
      obtain ⟨p, h₁, lists₁, heq, hmemory, hcases⟩ := hinv.alloc hsrc newLayout
      rw [heq]
      rcases hcases with ⟨rfl, hinv₁⟩ | ⟨hp, hinv₁⟩
      · exact ⟨0, h₁, lists₁, rfl, Or.inl ⟨rfl, hmemory, hinv₁⟩⟩
      · have hold : (address, layout) ∈ (p, newLayout) :: (address, layout) :: held :=
          List.mem_cons_of_mem _ List.mem_cons_self
        -- the copy goes to the new block, which is apart from everything else
        have hroom : ∀ x, (⟨p, min layout.size newSize⟩ : Region).Has x →
            (block (p, newLayout)).Has x := fun x hx => by
          have hfits := (hinv₁.placed _ List.mem_cons_self).fits
          dsimp only at hfits
          rw [hsize] at hfits
          refine ⟨hx.1, lt_of_lt_of_le hx.2 ?_⟩
          unfold Region.stop
          dsimp only [block] at hfits ⊢
          omega
        have hcopied : Inv ledger { h₁ with
            memory := h₁.memory.copy address p (min layout.size newSize) } lists₁
            ((p, newLayout) :: (address, layout) :: held) := by
          refine hinv₁.write fun k hk x hx i hi => Memory.copy_of_not_has fun hhas => ?_
          have hapart := hinv₁.apart_cached List.mem_cons_self hk hx
          have hge := blockSize_ge k
          refine hapart.not_has (hroom _ hhas) ⟨Nat.le_add_right _ _, Nat.add_lt_add_left ?_ _⟩
          dsimp only
          omega
        obtain ⟨⟨lists₂, hinv₂⟩, hframe⟩ := (hcopied.perm (List.Perm.swap _ _ _)).dealloc hsrc
        refine ⟨p, _, lists₂, ?_, Or.inr ⟨hp, fun i hi => ?_, newLayout, rfl, hinv₂⟩⟩
        · cases p with
          | zero => exact absurd rfl hp
          | succ p => rfl
        · have hapart : (block (p, newLayout)).Apart (block (address, layout)) :=
            (List.pairwise_cons.mp hinv₁.apart).1 _ (List.mem_append_left _ List.mem_cons_self)
          have hhas : (⟨p, min layout.size newSize⟩ : Region).Has (p + i) :=
            ⟨Nat.le_add_right _ _, Nat.add_lt_add_left hi _⟩
          rw [hframe _ (hapart.not_has (hroom _ hhas)), ← hmemory]
          exact Memory.copy_of_lt hi

/-! ## Whole runs -/

variable {w w' : World σ}

/-- The invariant of a world. -/
def World.Inv (ledger : Ledger σ) (w : World σ) : Prop :=
  ∃ lists, Libsaeos.Inv ledger w.heap lists w.live

theorem World.Inv.initial (hinit : World.Initial ledger w) : w.Inv ledger := by
  obtain ⟨source, memory, hgranted, rfl⟩ := hinit
  have hunused : (Heap.new source memory).unused = [] := rfl
  have hcached : cachedBlocks (fun _ => []) = [] := rfl
  refine ⟨fun _ => [], ?_, (fun b hb => absurd hb (by simp)), fun k hk => rfl,
    (fun k hk x hx => absurd hx (by simp)), ?_,
    ?_, ?_, Nat.le_refl _, (fun hpos => (by cases hpos)), (by decide : 0 + large ≤ wordLimit)⟩
  · rw [hunused, hcached]
    exact List.Pairwise.nil
  · rw [hunused, hcached]
    exact fun r hr => absurd hr (by simp)
  · change (ledger.granted source).Pairwise _
    rw [hgranted]
    exact List.Pairwise.nil
  · change ∀ g ∈ ledger.granted source, _
    rw [hgranted]
    exact fun g hg => absurd hg (by simp)

/-- A live block in front of the others. -/
theorem Inv.front {b : ℕ × Layout} (hinv : Inv ledger h lists held) (hb : b ∈ held) :
    Inv ledger h lists (b :: held.erase b) :=
  hinv.perm (List.perm_cons_erase hb)

theorem World.Inv.step (hsrc : src.Honest ledger) {op : Op} (hinv : w.Inv ledger)
    (hstep : World.Step src ledger w op w') : w'.Inv ledger := by
  obtain ⟨lists, hinv⟩ := hinv
  cases hstep with
  | @alloc layout address heap halloc haddress =>
    obtain ⟨p, h', lists', heq, -, hcases⟩ := hinv.alloc hsrc layout
    rw [halloc] at heq
    cases heq
    exact ⟨lists', (hcases.resolve_left fun hzero => haddress hzero.1).2⟩
  | @allocFail layout heap halloc =>
    obtain ⟨p, h', lists', heq, -, hcases⟩ := hinv.alloc hsrc layout
    rw [halloc] at heq
    cases heq
    exact ⟨lists', (hcases.resolve_right fun hne => hne.1 rfl).2⟩
  | dealloc hlive => exact ((hinv.front hlive).dealloc hsrc).1
  | @realloc address new newSize layout newLayout heap hlive hlayout hrealloc hnew =>
    obtain ⟨p, h', lists', heq, hcases⟩ := (hinv.front hlive).realloc hsrc newSize
    rw [hrealloc] at heq
    cases heq
    obtain ⟨-, -, newLayout', hlayout', hinv'⟩ := hcases.resolve_left fun hzero => hnew hzero.1
    rw [hlayout] at hlayout'
    cases hlayout'
    exact ⟨lists', hinv'⟩
  | @reallocFail address newSize layout heap hlive hrealloc =>
    obtain ⟨p, h', lists', heq, hcases⟩ := (hinv.front hlive).realloc hsrc newSize
    rw [hrealloc] at heq
    cases heq
    obtain ⟨-, -, hinv'⟩ := hcases.resolve_right fun hne => hne.1 rfl
    exact ⟨lists', hinv'.perm (List.perm_cons_erase hlive).symm⟩
  | @write memory houtside =>
    refine ⟨lists, hinv.write fun k hk x hx i hi => houtside _ ?_ fun b hb hhas => ?_⟩
    -- a free block is in granted memory and in no live block
    · have hge := blockSize_ge k
      obtain ⟨g, hg, hhas⟩ := hinv.inGrown _ (List.mem_append_left _ (mem_cachedBlocks hk hx)) (x + i)
        ⟨Nat.le_add_right _ _, Nat.add_lt_add_left (by dsimp only; omega) _⟩
      exact ⟨g, List.mem_append_left _ hg, hhas⟩
    · have hge := blockSize_ge k
      refine (hinv.apart_cached hb hk hx).not_has hhas ⟨Nat.le_add_right _ _, Nat.add_lt_add_left ?_ _⟩
      dsimp only
      omega

/-- **Blocks are apart and contents survive.** For every source that grants disjoint regions and every
run, the live blocks, the free blocks of the classes (as their links thread them) and the unused part of
the heap are apart; live blocks are aligned, large enough and in memory the source granted and has not
taken back. A `realloc` of a live block keeps its contents up to the smaller size, and one that returns
null leaves its bytes as they were. -/
theorem reachable_apart (hsrc : src.Honest ledger) (hreach : World.Reachable src ledger w) :
    (∃ lists : ℕ → List ℕ,
      (∀ k < classes, w.heap.memory.Threads (w.heap.free k) (lists k)) ∧
      (w.live.map block ++ (cachedBlocks lists ++ w.heap.unused)).Pairwise Region.Apart) ∧
    (∀ b ∈ w.live, b.2.align ∣ b.1 ∧ b.2.size ≤ (block b).size ∧
      ∀ x, (block b).Has x → ∃ g ∈ ledger.granted w.heap.source, g.Has x) ∧
    ∀ b ∈ w.live, ∀ newSize, ∃ p h', w.heap.realloc src b.1 b.2 newSize = (p, h') ∧
      (p ≠ 0 → ∀ i < min b.2.size newSize, h'.memory (p + i) = w.heap.memory (b.1 + i)) ∧
      (p = 0 → World.Step src ledger w (.realloc b.1 b.2 newSize) ⟨h', w.live⟩ ∧
        ∀ x, (block b).Has x → h'.memory x = w.heap.memory x) := by
  obtain ⟨lists, hinv⟩ := Run.Reachable.invariant (P := World.Inv ledger)
    (fun _ hinit => World.Inv.initial hinit) (fun _ _ _ hinv hstep => hinv.step hsrc hstep) hreach
  refine ⟨⟨lists, hinv.threads, hinv.apart⟩, fun b hb => ?_, fun b hb newSize => ?_⟩
  · have hplaced := hinv.placed b hb
    exact ⟨hplaced.aligned, hplaced.fits, hplaced.covered⟩
  · obtain ⟨address, layout⟩ := b
    obtain ⟨p, h', lists', heq, hcases⟩ := (hinv.front hb).realloc hsrc newSize
    refine ⟨p, h', heq, fun hne => ?_, fun hzero => ?_⟩
    · exact (hcases.resolve_left fun hzero => hne hzero.1).2.1
    · obtain ⟨-, hmemory, -⟩ := hcases.resolve_right fun hne => hne.1 hzero
      rw [hzero] at heq
      exact ⟨.reallocFail hb heq, fun x _ => by rw [hmemory]⟩

/-! ## A source -/

/-- The first page above some regions. -/
def pageAbove (granted : List Region) : ℕ :=
  roundUp (granted.foldr (fun r top => max r.stop top) page) page

theorem stop_le_pageAbove {granted : List Region} {r : Region} (hr : r ∈ granted) :
    r.stop ≤ pageAbove granted := by
  refine Nat.le_trans ?_ (le_roundUp (by decide))
  induction granted with
  | nil => cases hr
  | cons o granted ih =>
    rcases List.mem_cons.mp hr with rfl | hr
    · exact Nat.le_max_left _ _
    · exact Nat.le_trans (ih hr) (Nat.le_max_right _ _)

theorem page_le_pageAbove (granted : List Region) : page ≤ pageAbove granted := by
  refine Nat.le_trans ?_ (le_roundUp (by decide))
  induction granted with
  | nil => exact Nat.le_refl _
  | cons o granted ih => exact Nat.le_trans ih (Nat.le_max_right _ _)

/-- A source that grants memory above all that it has granted, while there is room. -/
def stackSource : Source (List Region × List Region) where
  grow := fun s n =>
    if pageAbove (s.1 ++ s.2) + n + large ≤ wordLimit then
      (some (pageAbove (s.1 ++ s.2)), (⟨pageAbove (s.1 ++ s.2), n⟩ :: s.1, s.2))
    else (none, s)
  map := fun s n =>
    if pageAbove (s.1 ++ s.2) + n + large ≤ wordLimit then
      (some (pageAbove (s.1 ++ s.2)), (s.1, ⟨pageAbove (s.1 ++ s.2), n⟩ :: s.2))
    else (none, s)
  unmap := fun s a n => (s.1, s.2.erase ⟨a, n⟩)

def stackLedger : Ledger (List Region × List Region) :=
  ⟨Prod.fst, Prod.snd⟩

theorem fresh_pageAbove {granted : List Region} {n : ℕ}
    (hroom : pageAbove granted + n + large ≤ wordLimit) : Fresh granted ⟨pageAbove granted, n⟩ where
  nonnull := Nat.ne_of_gt (lt_of_lt_of_le (by decide) (page_le_pageAbove granted))
  below := hroom
  apart := fun _ ho => Or.inr (stop_le_pageAbove ho)

theorem stackSource_honest : stackSource.Honest stackLedger where
  grow_some := fun s n a s' _ hgrow => by
    unfold stackSource at hgrow
    dsimp only at hgrow
    split_ifs at hgrow with hroom
    · cases hgrow
      exact ⟨fresh_pageAbove hroom, rfl, rfl⟩
    · cases hgrow
  grow_none := fun s n s' hgrow => by
    unfold stackSource at hgrow
    dsimp only at hgrow
    split_ifs at hgrow
    · cases hgrow
    · cases hgrow
      exact ⟨rfl, rfl⟩
  map_some := fun s n a s' _ _ hmap => by
    unfold stackSource at hmap
    dsimp only at hmap
    split_ifs at hmap with hroom
    · cases hmap
      exact ⟨fresh_pageAbove hroom, dvd_roundUp, rfl, rfl⟩
    · cases hmap
  map_none := fun s n s' hmap => by
    unfold stackSource at hmap
    dsimp only at hmap
    split_ifs at hmap
    · cases hmap
    · cases hmap
      exact ⟨rfl, rfl⟩
  unmap := fun s a n _ => ⟨rfl, rfl⟩

theorem World.Reachable.alloc {h : Heap σ} {live : List (ℕ × Layout)}
    (hreach : World.Reachable src ledger ⟨h, live⟩) (layout : Layout) (address : ℕ)
    (haddress : (h.alloc src layout).1 = address) (hne : address ≠ 0) :
    World.Reachable src ledger ⟨(h.alloc src layout).2, (address, layout) :: live⟩ :=
  .next hreach (.alloc (Prod.ext haddress rfl) hne)

theorem World.Reachable.realloc {h : Heap σ} {live : List (ℕ × Layout)} {address : ℕ}
    {layout newLayout : Layout} (hreach : World.Reachable src ledger ⟨h, live⟩) (new newSize : ℕ)
    (hlive : (address, layout) ∈ live)
    (hlayout : fromSizeLog newSize layout.log = some newLayout)
    (hnew : (h.realloc src address layout newSize).1 = new) (hne : new ≠ 0) :
    World.Reachable src ledger ⟨(h.realloc src address layout newSize).2,
      (new, newLayout) :: live.erase (address, layout)⟩ :=
  .next hreach (.realloc hlive hlayout (Prod.ext hnew rfl) hne)

/-- Three blocks from a heap over that source: the first is freed, the second is moved to a larger class. -/
theorem reachable_apart_moved :
    ∃ w : World (List Region × List Region), World.Reachable stackSource stackLedger w ∧
      w.live.map block = [⟨4608, 512⟩, ⟨4352, 32⟩] ∧
      (∃ lists : ℕ → List ℕ, w.heap.memory.Threads (w.heap.free 0) (lists 0) ∧
        (w.live.map block ++ (cachedBlocks lists ++ w.heap.unused)).Pairwise Region.Apart) ∧
      ∀ b ∈ w.live, ∀ x, (block b).Has x → ∃ g ∈ stackLedger.granted w.heap.source, g.Has x := by
  let a : Layout := ⟨8, 3, by decide, by decide⟩
  let b : Layout := ⟨100, 3, by decide, by decide⟩
  let b' : Layout := ⟨300, 3, by decide, by decide⟩
  let c : Layout := ⟨24, 4, by decide, by decide⟩
  have hstart : World.Reachable stackSource stackLedger ⟨Heap.new ([], []) fun _ => 0, []⟩ :=
    .start ⟨([], []), fun _ => 0, rfl, rfl⟩
  have hfirst := hstart.alloc a 4096 (by decide +kernel) (by decide)
  have hsecond := hfirst.alloc b 4224 (by decide +kernel) (by decide)
  have hthird := hsecond.alloc c 4352 (by decide +kernel) (by decide)
  have hfreed : World.Reachable stackSource stackLedger ⟨_, [(4352, c), (4224, b)]⟩ :=
    .next hthird (.dealloc (show (4096, a) ∈ _ by decide))
  have hreach := hfreed.realloc 4608 300 (show (4224, b) ∈ _ by decide)
    (show _ = some b' by decide +kernel) (by decide +kernel) (by decide)
  obtain ⟨⟨lists, hthreads, hapart⟩, hlive, -⟩ := reachable_apart stackSource_honest hreach
  exact ⟨_, hreach, by decide +kernel, ⟨lists, hthreads 0 (by decide), hapart⟩,
    fun b hb => (hlive b hb).2.2⟩

end SaeOS.Libsaeos
