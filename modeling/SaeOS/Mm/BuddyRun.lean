import Mathlib.Tactic.Linarith
import SaeOS.Lib.Run
import SaeOS.Mm.BuddyInvariant

/-!
# Runs of the buddy allocator

The loops of `build`, `allocate`, `release` and `insert_reserved_range` keep the representation
invariant, with every property of the lists that taking a block off and listing a merged one keep
(`Kept`). Owners may write anything into frames that are not free.

Merging probes the tag of a buddy that may be any frame. The probe cannot meet a forged tag: a free
buddy of a pending block is the first frame of a listed block (`Inv.buddy_mem`), so what it reads
there is the allocator's own node.
-/

namespace SaeOS.Buddy

open AlignedBlock LinkedList

/-! ## Orders -/

/-- `trailingZeros` gives a power of two that divides the frame. -/
theorem trailingZeros_spec (limit frame : ℕ) :
    trailingZeros limit frame ≤ limit ∧ 2 ^ trailingZeros limit frame ∣ frame := by
  induction limit generalizing frame with
  | zero => simp [trailingZeros]
  | succ limit ih =>
    simp only [trailingZeros]
    split_ifs with hodd
    · simp
    · obtain ⟨hle, hdvd⟩ := ih (frame / 2)
      have heven : frame / 2 * 2 = frame := by omega
      have hdouble := Nat.mul_dvd_mul_right hdvd 2
      rw [heven, ← pow_succ] at hdouble
      exact ⟨Nat.succ_le_succ hle, hdouble⟩

theorem fitOrder_spec {frame stop : ℕ} (hlt : frame < stop) (limit : ℕ) :
    fitOrder frame stop limit ≤ limit ∧ frame + 2 ^ fitOrder frame stop limit ≤ stop := by
  induction limit with
  | zero => exact ⟨le_rfl, hlt⟩
  | succ limit ih =>
    simp only [fitOrder]
    split_ifs with hbig
    · exact ⟨ih.1.trans (Nat.le_succ limit), ih.2⟩
    · exact ⟨le_rfl, not_lt.mp hbig⟩

/-- `blockOrder` picks an aligned block that fits. -/
theorem blockOrder_spec {frame stop : ℕ} (hlt : frame < stop) :
    blockOrder frame stop ≤ maxOrder ∧ 2 ^ blockOrder frame stop ∣ frame ∧
      frame + 2 ^ blockOrder frame stop ≤ stop := by
  have hzeros := trailingZeros_spec maxOrder frame
  have hfit := fitOrder_spec hlt (trailingZeros maxOrder frame)
  exact ⟨hfit.1.trans hzeros.1, (pow_dvd_pow 2 hfit.1).trans hzeros.2, hfit.2⟩

/-- The frames of a run are all in its state; a run that starts is not empty. -/
theorem runEnd_spec (b : Buddy) (s : State) (budget frame : ℕ) :
    frame ≤ b.runEnd s budget frame ∧ b.runEnd s budget frame ≤ frame + budget ∧
      ∀ g, frame ≤ g → g < b.runEnd s budget frame → b.state g = s := by
  induction budget generalizing frame with
  | zero =>
    refine ⟨le_rfl, le_rfl, fun g h1 h2 => ?_⟩
    simp only [runEnd] at h2
    omega
  | succ budget ih =>
    simp only [runEnd]
    split_ifs with hstate
    · obtain ⟨h1, h2, h3⟩ := ih (frame + 1)
      refine ⟨by omega, by omega, fun g hg1 hg2 => ?_⟩
      rcases Nat.eq_or_lt_of_le hg1 with rfl | hlt
      · exact hstate
      · exact h3 g hlt hg2
    · exact ⟨le_rfl, by omega, fun g h1 h2 => by omega⟩

theorem lt_runEnd {b : Buddy} {s : State} {budget frame : ℕ} (hstate : b.state frame = s)
    (hbudget : 0 < budget) : frame < b.runEnd s budget frame := by
  cases budget with
  | zero => omega
  | succ budget =>
    rw [runEnd, if_pos hstate]
    exact (runEnd_spec b s budget (frame + 1)).1

/-! ## What the loops leave alone -/

theorem coalesce_frame (budget : ℕ) (b : Buddy) (f o : ℕ) :
    (coalesce budget b f o).1.state = b.state ∧
      (coalesce budget b f o).1.frameCount = b.frameCount := by
  induction budget generalizing b f o with
  | zero => exact ⟨rfl, rfl⟩
  | succ budget ih =>
    simp only [coalesce]
    split_ifs
    · exact ih _ _ _
    · exact ⟨rfl, rfl⟩

/-- Merging and listing a block does not touch the bitmap. -/
theorem coalesceAndPush_frame (b : Buddy) (f o : ℕ) :
    (b.coalesceAndPush f o).state = b.state ∧
      (b.coalesceAndPush f o).frameCount = b.frameCount :=
  coalesce_frame (maxOrder - o) b f o

theorem insertRun_frame (stop budget : ℕ) (b : Buddy) (f : ℕ) :
    (insertRun stop budget b f).state = b.state ∧
      (insertRun stop budget b f).frameCount = b.frameCount := by
  induction budget generalizing b f with
  | zero => exact ⟨rfl, rfl⟩
  | succ budget ih =>
    simp only [insertRun]
    split_ifs
    · exact ih _ _
    · exact ⟨rfl, rfl⟩

theorem buildFrom_frame (budget : ℕ) (b : Buddy) (f : ℕ) :
    (buildFrom budget b f).state = b.state ∧ (buildFrom budget b f).frameCount = b.frameCount := by
  induction budget generalizing b f with
  | zero => exact ⟨rfl, rfl⟩
  | succ budget ih =>
    simp only [buildFrom]
    split_ifs with hlt hfree
    · obtain ⟨hstate, hcount⟩ := insertRun_frame _ _ b f
      obtain ⟨hstate', hcount'⟩ := ih _ _
      exact ⟨hstate'.trans hstate, hcount'.trans hcount⟩
    · exact ih _ _
    · exact ⟨rfl, rfl⟩

variable {b : Buddy} {lists : Lists} {P : Set ℕ} {f o : ℕ} {R : Lists → Prop}

/-! ## Properties of the lists -/

/-- The invariant, on lists with a property. -/
def Listed (R : Lists → Prop) (b : Buddy) (P : Set ℕ) : Prop :=
  ∃ lists, Inv b lists P ∧ R lists

/-- A property of the lists that survives taking a block off, and listing one whose buddy is not
listed. -/
structure Kept (R : Lists → Prop) : Prop where
  unlinked : ∀ {b lists P z o f}, Inv b lists P → R lists → f ∈ lists z o →
    R (unlinked lists f z o)
  pushed : ∀ {lists o f}, R lists → (o < maxOrder → ∀ z, f ^^^ 2 ^ o ∉ lists z o) →
    R (pushed lists f o)

theorem kept_true : Kept fun _ => True :=
  ⟨fun _ _ _ => trivial, fun _ _ => trivial⟩

/-- A block with a pending frame is not listed. -/
theorem Inv.notMem_of_pending (h : Inv b lists P) {g : ℕ} (hg : g ∈ P) (hin : g ∈ block f o) :
    ∀ z, f ∉ lists z o := by
  intro z hmem
  exact (h.pending g hg).2 ⟨z, o, f, hmem, hin⟩

/-- The head of a listed block passes the probe at its own order. -/
theorem Inv.isFreeHead_of_mem {z : Zone} (h : Inv b lists P) (hf : f ∈ lists z o) :
    b.isFreeHead f o = true := by
  obtain ⟨-, -, -, hrange⟩ := h.listed z o f hf
  obtain ⟨hmagic, horder⟩ := h.tagged z o f hf
  simp [isFreeHead, hrange, h.state_of_covered (covered_of_mem hf), hmagic, horder]

/-! ## `build` -/

/-- `insert_run` lists a run of pending frames. -/
theorem Inv.insertRun {stop budget frame : ℕ} (h : Inv b lists P) (hlists : R lists)
    (hpush : ∀ lists f, R lists → frame ≤ f → f < stop → R (pushed lists f (blockOrder f stop)))
    (hle : frame ≤ stop) (hbudget : stop - frame ≤ budget)
    (hsub : ∀ g, frame ≤ g → g < stop → g ∈ P) :
    Listed R (insertRun stop budget b frame) (P \ Set.Ico frame stop) := by
  induction budget generalizing b lists P frame with
  | zero =>
    have heq : frame = stop := by omega
    subst heq
    exact ⟨lists, by simpa [Buddy.insertRun] using h, hlists⟩
  | succ budget ih =>
    rw [Buddy.insertRun]
    split_ifs with hlt
    · obtain ⟨ho, hdvd, hfit⟩ := blockOrder_spec hlt
      have hpushed := h.push ho hdvd fun g hg => hsub g hg.1 (lt_of_lt_of_le hg.2 hfit)
      have hpos := Nat.two_pow_pos (blockOrder frame stop)
      obtain ⟨lists', hrest, hlists'⟩ := ih hpushed (hpush lists frame hlists le_rfl hlt)
        (fun l f hl hf => hpush l f hl (by omega)) hfit (by omega) fun g h1 h2 =>
          ⟨hsub g (by omega) h2, fun hin => absurd hin.2 (by omega)⟩
      refine ⟨lists', ?_, hlists'⟩
      convert hrest using 1
      ext g
      simp only [Set.mem_sdiff, Set.mem_Ico, mem_block]
      constructor
      · rintro ⟨hg, hnot⟩
        exact ⟨⟨hg, by omega⟩, by omega⟩
      · rintro ⟨⟨hg, hnot⟩, hnot'⟩
        exact ⟨hg, by omega⟩
    · have heq : frame = stop := by omega
      subst heq
      exact ⟨lists, by simpa using h, hlists⟩

/-- The free frames from `frame` on. -/
def freeFrom (b : Buddy) (frame : ℕ) : Set ℕ :=
  {g | frame ≤ g ∧ g < b.frameCount ∧ b.state g = .free}

theorem mem_freeFrom {frame g : ℕ} :
    g ∈ freeFrom b frame ↔ frame ≤ g ∧ g < b.frameCount ∧ b.state g = .free :=
  Iff.rfl

theorem freeFrom_eq_empty {frame : ℕ} (hle : b.frameCount ≤ frame) : freeFrom b frame = ∅ := by
  ext g
  simp only [mem_freeFrom, Set.mem_empty_iff_false, iff_false]
  omega

/-- A run ends at its bound or at a frame in another state. -/
theorem state_runEnd {s : State} {budget frame : ℕ} (hlt : b.runEnd s budget frame < frame + budget) :
    b.state (b.runEnd s budget frame) ≠ s := by
  induction budget generalizing frame with
  | zero => simp [runEnd] at hlt
  | succ budget ih =>
    rw [runEnd] at hlt ⊢
    split_ifs at hlt ⊢ with hstate
    · exact ih (by omega)
    · exact hstate

/-- The scanning loop lists every free frame ahead of it, in whole runs. -/
theorem Inv.buildFrom {budget frame : ℕ} (h : Inv b lists (freeFrom b frame)) (hlists : R lists)
    (hpush : ∀ lists f stop, R lists → f < stop → (stop < b.frameCount → b.state stop ≠ .free) →
      R (pushed lists f (blockOrder f stop)))
    (hbudget : b.frameCount - frame ≤ budget) : Listed R (buildFrom budget b frame) ∅ := by
  induction budget generalizing b lists frame with
  | zero =>
    rw [freeFrom_eq_empty (by omega)] at h
    exact ⟨lists, h, hlists⟩
  | succ budget ih =>
    rw [Buddy.buildFrom]
    split_ifs with hlt hfree
    · set stop := b.runEnd .free (b.frameCount - frame) frame with hstop
      obtain ⟨hge, hle, hrun⟩ := runEnd_spec b .free (b.frameCount - frame) frame
      rw [← hstop] at hge hle hrun
      have hprogress : frame < stop := lt_runEnd hfree (by omega)
      have hend : stop < b.frameCount → b.state stop ≠ .free := fun hin =>
        state_runEnd (by rw [← hstop]; omega)
      obtain ⟨hstate, hcount⟩ := insertRun_frame stop (stop - frame) b frame
      obtain ⟨lists', hinv, hlists'⟩ := h.insertRun hlists
        (fun l f hl _ hf => hpush l f stop hl hf hend) hge le_rfl fun g h1 h2 =>
          ⟨h1, by omega, hrun g h1 h2⟩
      -- what is left to list are the free frames behind the run
      have hrest : freeFrom b frame \ Set.Ico frame stop =
          freeFrom (Buddy.insertRun stop (stop - frame) b frame) stop := by
        ext g
        simp only [mem_freeFrom, hstate, hcount, Set.mem_sdiff, Set.mem_Ico]
        constructor
        · rintro ⟨⟨h1, h2, h3⟩, hnot⟩
          exact ⟨by omega, h2, h3⟩
        · rintro ⟨h1, h2, h3⟩
          exact ⟨⟨by omega, h2, h3⟩, by omega⟩
      rw [hrest] at hinv
      exact ih hinv hlists' (by rw [hcount, hstate]; exact hpush) (by rw [hcount]; omega)
    · have hrest : freeFrom b frame = freeFrom b (frame + 1) := by
        ext g
        simp only [mem_freeFrom]
        constructor
        · rintro ⟨h1, h2, h3⟩
          have hne : frame ≠ g := fun heq => hfree (heq ▸ h3)
          exact ⟨by omega, h2, h3⟩
        · rintro ⟨h1, h2, h3⟩
          exact ⟨by omega, h2, h3⟩
      rw [hrest] at h
      exact ih h hlists hpush (by omega)
    · rw [freeFrom_eq_empty (by omega)] at h
      exact ⟨lists, h, hlists⟩

/-- `build` establishes the invariant over any bitmap. -/
theorem Listed.build (b : Buddy) (hempty : R fun _ _ => [])
    (hpush : ∀ lists f stop, R lists → f < stop → (stop < b.frameCount → b.state stop ≠ .free) →
      R (pushed lists f (blockOrder f stop))) : Listed R b.build ∅ := by
  have hnone : ∀ g, ¬Covered (fun _ _ => []) g := by
    rintro g ⟨z, o, f, hf, -⟩
    cases hf
  have hinit : Inv { b with heads := fun _ _ => noFrame, counts := fun _ _ => 0 } (fun _ _ => [])
      (freeFrom b 0) :=
    { chain := fun z o => rfl
      nodup := fun z o => List.nodup_nil
      tagged := fun z o f hf => by cases hf
      count := fun z o => rfl
      listed := fun z o f hf => by cases hf
      disjoint := fun z o z' o' f hf => by cases hf
      free_iff := fun g hg => by simp [hnone, mem_freeFrom, hg]
      pending := fun g hg => ⟨hg.2.1, hnone g⟩ }
  exact hinit.buildFrom hempty hpush le_rfl

/-! ## `allocate` -/

/-- The splitting loop keeps the lower part of a pending block: it lists upper halves, each with its
lower half pending. -/
theorem Kept.splitTo {head order current : ℕ} (hR : Kept R) (h : Listed R b (block head current))
    (hdvd : 2 ^ current ∣ head) (hcurrent : current ≤ maxOrder) (horder : order ≤ current) :
    Listed R (splitTo head order current b) (block head order) := by
  induction current generalizing b with
  | zero =>
    have heq : order = 0 := by omega
    subst heq
    exact h
  | succ current ih =>
    rw [Buddy.splitTo]
    split_ifs with hlt
    · obtain ⟨lists, hinv, hlists⟩ := h
      obtain ⟨hlow, hhigh⟩ := dvd_add_half hdvd
      have hsub : block (head + 2 ^ current) current ⊆ block head (current + 1) := by
        rw [block_succ]
        exact Set.subset_union_right
      have hpush := hinv.push (by omega) hhigh hsub
      rw [block_succ_diff_upper] at hpush
      refine ih ⟨_, hpush, hR.pushed hlists fun _ => ?_⟩ hlow (by omega) (by omega)
      rw [show (head + 2 ^ current) ^^^ 2 ^ current = head by
        rw [← buddy_of_halves hdvd, buddy_buddy]]
      exact hinv.notMem_of_pending self_mem_block self_mem_block
    · have heq : order = current + 1 := by omega
      subst heq
      exact h

/-- `findSource` picks a non-empty list of a large enough order. -/
theorem findSource_eq_some {order source : ℕ} {zones : List Zone} {zone : Zone}
    (h : b.findSource order zones = some (zone, source)) :
    order ≤ source ∧ source ≤ maxOrder ∧ b.heads zone source ≠ noFrame := by
  obtain ⟨z, -, hz⟩ := List.exists_of_findSome?_eq_some h
  obtain ⟨s, hfind, heq⟩ := Option.map_eq_some_iff.mp hz
  cases heq
  have hmem := List.mem_of_find?_eq_some hfind
  have hhead := List.find?_some hfind
  rw [List.mem_range'_1] at hmem
  exact ⟨hmem.1, by omega, by simpa using hhead⟩

/-- `allocate` keeps the invariant. -/
theorem Kept.allocate (hR : Kept R) (h : Listed R b ∅) (order : ℕ) (zones : List Zone) :
    Listed R (b.allocate order zones).2 ∅ := by
  unfold Buddy.allocate
  split_ifs with horder
  · exact h
  · split
    next => exact h
    next zone source hsource =>
      obtain ⟨lists, hinv, hlists⟩ := h
      obtain ⟨hle, hmax, hhead⟩ := findSource_eq_some hsource
      have hmem := hinv.head_mem hhead
      have hunlink := hinv.unlink hmem
      rw [Set.empty_union] at hunlink
      obtain ⟨lists', hsplit, hlists'⟩ := hR.splitTo ⟨_, hunlink, hR.unlinked hinv hlists hmem⟩
        (hinv.listed _ _ _ hmem).2.1 hmax hle
      have htaken := hsplit.setStates_taken (s := .allocated) (by simp) subset_rfl
      rw [Set.sdiff_self] at htaken
      exact ⟨lists', htaken, hlists'⟩

/-! ## `release` -/

/-- A free frame that is the buddy of a pending block and looks like a head is one. -/
theorem Inv.buddy_mem (h : Inv b lists (block f o)) (hdvd : 2 ^ o ∣ f)
    (hhead : b.isFreeHead (f ^^^ 2 ^ o) o = true) :
    f ^^^ 2 ^ o ∈ lists (Zone.of (f ^^^ 2 ^ o)) o := by
  obtain ⟨hbuddy, hlow, hdisj, hunion⟩ := buddy_spec hdvd
  simp only [isFreeHead, Bool.and_eq_true, decide_eq_true_eq, beq_iff_eq] at hhead
  obtain ⟨⟨⟨hrange, hfree⟩, -⟩, horder⟩ := hhead
  have hlt : f ^^^ 2 ^ o < b.frameCount := lt_of_lt_of_le (self_mem_block (o := o)).2 hrange
  rcases (h.free_iff _ hlt).mp hfree with ⟨z, o', f', hf', hcov⟩ | hpend
  · obtain ⟨-, hdvd', hz, -⟩ := h.listed z o' f' hf'
    -- a larger block around the buddy would cover the pending block as well
    have hle : o' ≤ o := by
      by_contra hgt
      have hself : f ^^^ 2 ^ o ∈ block (min f (f ^^^ 2 ^ o)) (o + 1) :=
        hunion ▸ Or.inr self_mem_block
      have hf : f ∈ block (min f (f ^^^ 2 ^ o)) (o + 1) := hunion ▸ Or.inl self_mem_block
      have hnested := block_subset hlow hdvd' (by omega) hself hcov
      exact (h.pending f self_mem_block).2 ⟨z, o', f', hf', hnested hf⟩
    have heq : f' = f ^^^ 2 ^ o := by
      rw [← alignDown_eq hdvd' hcov]
      exact alignDown_eq ((pow_dvd_pow 2 hle).trans hbuddy) self_mem_block
    subst heq
    have ho : o' = o := by rw [← (h.tagged z o' _ hf').2, horder]
    rw [ho] at hf'
    rwa [hz]
  · exact absurd hpend fun hin => Set.disjoint_left.mp hdisj hin self_mem_block

/-- The merging loop grows a pending block by its buddies, up to the largest order or to a buddy that is
not listed. -/
theorem Kept.coalesce {budget : ℕ} (hR : Kept R) (h : Listed R b (block f o)) (hdvd : 2 ^ o ∣ f)
    (hbudget : o + budget = maxOrder) :
    ∃ lists', Inv (coalesce budget b f o).1 lists'
        (block (coalesce budget b f o).2.1 (coalesce budget b f o).2.2) ∧ R lists' ∧
      2 ^ (coalesce budget b f o).2.2 ∣ (coalesce budget b f o).2.1 ∧
      (coalesce budget b f o).2.2 ≤ maxOrder ∧
      ((coalesce budget b f o).2.2 < maxOrder → ∀ z, (coalesce budget b f o).2.1 ^^^
        2 ^ (coalesce budget b f o).2.2 ∉ lists' z (coalesce budget b f o).2.2) := by
  -- induction on the orders left to try
  induction budget generalizing b f o with
  | zero =>
    obtain ⟨lists, hinv, hlists⟩ := h
    simp only [Buddy.coalesce]
    exact ⟨lists, hinv, hlists, hdvd, by omega, fun hlt => by omega⟩
  | succ budget ih =>
    obtain ⟨lists, hinv, hlists⟩ := h
    simp only [Buddy.coalesce]
    split_ifs with hhead
    · have hmem := hinv.buddy_mem hdvd hhead
      have hunlink := hinv.unlink hmem
      obtain ⟨-, hlow, -, hunion⟩ := buddy_spec hdvd
      rw [hunion] at hunlink
      exact ih ⟨_, hunlink, hR.unlinked hinv hlists hmem⟩ hlow (by omega)
    · -- a listed buddy would have passed the probe
      refine ⟨lists, hinv, hlists, hdvd, by simp only; omega, fun _ z hmem => hhead ?_⟩
      exact hinv.isFreeHead_of_mem hmem

/-- Freeing a block and listing it, merged with its buddies, keeps the invariant. -/
theorem Kept.freeBlock (hR : Kept R) (h : Listed R b ∅) (hdvd : 2 ^ o ∣ f) (ho : o ≤ maxOrder)
    (hrange : f + 2 ^ o ≤ b.frameCount) (hstate : ∀ g ∈ block f o, b.state g ≠ .free) :
    Listed R ((b.setStates f (2 ^ o) .free).coalesceAndPush f o) ∅ := by
  obtain ⟨lists, hinv, hlists⟩ := h
  have hfreed := hinv.setStates_free hrange hstate
  rw [Set.empty_union] at hfreed
  obtain ⟨lists', hmerged, hlists', hdvd', ho', hbuddy⟩ :=
    hR.coalesce ⟨lists, hfreed, hlists⟩ hdvd (Nat.add_sub_cancel' ho)
  have hpush := hmerged.push ho' hdvd' subset_rfl
  rw [Set.sdiff_self] at hpush
  exact ⟨_, hpush, hR.pushed hlists' hbuddy⟩

theorem rangeIs_iff {count : ℕ} {s : State} :
    b.rangeIs f count s = true ↔ ∀ g, f ≤ g → g < f + count → b.state g = s := by
  simp [rangeIs, List.mem_range'_1]

/-- `release` keeps the invariant, whatever block it is given. -/
theorem Kept.release (hR : Kept R) (h : Listed R b ∅) (frame order : ℕ) :
    Listed R (b.release frame order).2 ∅ := by
  simp only [Buddy.release]
  split_ifs with horder hrange haligned hreserved hfree hallocated
  all_goals try exact h
  have hall : b.rangeIs frame (2 ^ order) .allocated = true := by simpa using hallocated
  refine hR.freeBlock h (Nat.dvd_of_mod_eq_zero (not_not.mp haligned)) (by omega) (by omega) ?_
  intro g hg
  rw [rangeIs_iff.mp hall g hg.1 hg.2]
  simp

/-! ## `insert_reserved_range` -/

/-- The pieces of a reserved run are freed one at a time. -/
theorem Kept.insertReserved {stop cursor : ℕ} (hR : Kept R) (h : Listed R b ∅) (budget : ℕ)
    (hstop : stop ≤ b.frameCount) (hstate : ∀ g, cursor ≤ g → g < stop → b.state g = .reserved) :
    Listed R (insertReserved stop budget b cursor) ∅ ∧
      (insertReserved stop budget b cursor).frameCount = b.frameCount := by
  induction budget generalizing b cursor with
  | zero => exact ⟨h, rfl⟩
  | succ budget ih =>
    simp only [Buddy.insertReserved]
    split_ifs with hlt
    · obtain ⟨ho, hdvd, hfit⟩ := blockOrder_spec hlt
      obtain ⟨hst, hcount⟩ := coalesceAndPush_frame
        (b.setStates cursor (2 ^ blockOrder cursor stop) .free) cursor (blockOrder cursor stop)
      have hfreed := hR.freeBlock h hdvd ho (hfit.trans hstop) fun g hg => by
        rw [hstate g hg.1 (lt_of_lt_of_le hg.2 hfit)]
        simp
      -- the pieces still ahead stay reserved
      have hahead : ∀ g, cursor + 2 ^ blockOrder cursor stop ≤ g → g < stop →
          ((b.setStates cursor (2 ^ blockOrder cursor stop) .free).coalesceAndPush cursor
            (blockOrder cursor stop)).state g = .reserved := by
        intro g h1 h2
        have hout : ¬(cursor ≤ g ∧ g < cursor + 2 ^ blockOrder cursor stop) := by omega
        rw [hst]
        simp only [setStates, if_neg hout]
        exact hstate g (by omega) h2
      obtain ⟨hrest, hcount'⟩ := ih hfreed (hcount ▸ hstop) hahead
      exact ⟨hrest, hcount'.trans hcount⟩
    · exact ⟨h, rfl⟩

theorem Kept.insertReservedFrom {stop budget index : ℕ} (hR : Kept R) (h : Listed R b ∅)
    (hstop : stop ≤ b.frameCount) : Listed R (insertReservedFrom stop budget b index) ∅ := by
  induction budget generalizing b index with
  | zero => exact h
  | succ budget ih =>
    rw [Buddy.insertReservedFrom]
    split_ifs with hlt hreserved
    · obtain ⟨-, hle, hrun⟩ := runEnd_spec b .reserved (stop - index) index
      obtain ⟨hinv, hcount⟩ := hR.insertReserved h
        (b.runEnd .reserved (stop - index) index - index) (by omega) hrun
      exact ih hinv (hcount ▸ hstop)
    · exact ih h hstop
    · exact h

/-- `insert_reserved_range` keeps the invariant, whatever range it is given. -/
theorem Kept.insertReservedRange (hR : Kept R) (h : Listed R b ∅) (frame stop : ℕ) :
    Listed R (b.insertReservedRange frame stop) ∅ :=
  hR.insertReservedFrom h (min_le_right _ _)

end SaeOS.Buddy
