import Mathlib.Data.List.Perm.Subperm
import SaeOS.Mm.Buddy

/-!
# The invariant of the buddy lists

`Inv b lists pending` relates a buddy state to the free lists it represents. The lists are threaded
through the nodes of their blocks, blocks are aligned, tagged, within one zone and pairwise
disjoint, and a frame is free in the bitmap exactly when a listed block covers it or it is
`pending`: a frame some operation has taken off the lists, or freed, and not yet listed again.

Each primitive of the allocator has one lemma: `push` moves a block from `pending` to the lists,
`unlink` moves it back, and the bitmap updates add or remove pending blocks. The loops are then
inductions over these lemmas, with `pending` empty between calls.
-/

namespace SaeOS.Buddy

open AlignedBlock LinkedList

/-- The free lists a state represents, by zone and order. -/
abbrev Lists : Type := Zone → ℕ → List ℕ

/-- Some listed block covers the frame. -/
def Covered (lists : Lists) (g : ℕ) : Prop :=
  ∃ z o, ∃ f ∈ lists z o, g ∈ block f o

/-- The representation invariant, with a set of pending frames. -/
structure Inv (b : Buddy) (lists : Lists) (pending : Set ℕ) : Prop where
  chain : ∀ z o, Chain noFrame (fun f => (b.node f).prev) (fun f => (b.node f).next) noFrame
    (b.heads z o) (lists z o)
  nodup : ∀ z o, (lists z o).Nodup
  tagged : ∀ z o, ∀ f ∈ lists z o, (b.node f).magic = headTag f ∧ (b.node f).order = o
  count : ∀ z o, b.counts z o = (lists z o).length
  listed : ∀ z o, ∀ f ∈ lists z o,
    o ≤ maxOrder ∧ 2 ^ o ∣ f ∧ Zone.of f = z ∧ f + 2 ^ o ≤ b.frameCount
  disjoint : ∀ z o z' o', ∀ f ∈ lists z o, ∀ f' ∈ lists z' o', ∀ g,
    g ∈ block f o → g ∈ block f' o' → f = f' ∧ o = o'
  free_iff : ∀ g, g < b.frameCount → (b.state g = .free ↔ Covered lists g ∨ g ∈ pending)
  pending : ∀ g ∈ pending, g < b.frameCount ∧ ¬Covered lists g

/-- Frame numbers are machine words, and so are their successors. -/
theorem frameCount_lt (b : Buddy) : b.frameCount + 1 < wordLimit := by
  have := b.noOverflow
  have hpos : 1 < 2 ^ maxOrder := by decide
  omega

namespace Inv

variable {b : Buddy} {lists : Lists} {P : Set ℕ} {f g o : ℕ} {z : Zone}

/-- A covered frame exists and is free. -/
theorem covered_lt (h : Inv b lists P) (hg : Covered lists g) : g < b.frameCount := by
  obtain ⟨z, o, f, hf, -, hlt⟩ := hg
  exact lt_of_lt_of_le hlt (h.listed z o f hf).2.2.2

theorem state_of_covered (h : Inv b lists P) (hg : Covered lists g) : b.state g = .free :=
  (h.free_iff g (h.covered_lt hg)).mpr (Or.inl hg)

/-- The head of a listed block is covered. -/
theorem covered_of_mem (hf : f ∈ lists z o) : Covered lists f :=
  ⟨z, o, f, hf, self_mem_block⟩

/-- A block is on one list only. -/
theorem list_unique (h : Inv b lists P) {z' : Zone} {o' : ℕ} (hf : f ∈ lists z o)
    (hf' : f ∈ lists z' o') : z = z' ∧ o = o' := by
  have hz := (h.listed z o f hf).2.2.1
  have hz' := (h.listed z' o' f hf').2.2.1
  exact ⟨hz.symm.trans hz', (h.disjoint z o z' o' f hf f hf' f self_mem_block self_mem_block).2⟩

/-- The null link is not a frame. -/
theorem ne_noFrame (b : Buddy) (hg : g < b.frameCount) : g ≠ noFrame := by
  have := b.frameCount_lt
  unfold noFrame
  omega

/-- A free list is no longer than there are frames. -/
theorem length_le (h : Inv b lists P) (z : Zone) (o : ℕ) : (lists z o).length ≤ b.frameCount := by
  have hsub : lists z o ⊆ List.range b.frameCount := fun f hf =>
    List.mem_range.mpr (h.covered_lt (covered_of_mem hf))
  simpa using (List.subperm_of_subset (h.nodup z o) hsub).length_le

/-- Following the links gives the lists back. -/
theorem freeList_eq (h : Inv b lists P) (z : Zone) (o : ℕ) : b.freeList z o = lists z o :=
  (h.chain z o).follow_eq (h.length_le z o)

/-- The head of a list is the null link or the block in front. -/
theorem head_mem (h : Inv b lists P) (hne : b.heads z o ≠ noFrame) : b.heads z o ∈ lists z o := by
  have hchain := h.chain z o
  cases hl : lists z o with
  | nil =>
    rw [hl] at hchain
    exact absurd hchain hne
  | cons x l =>
    rw [hl] at hchain
    rw [hchain.1]
    exact List.mem_cons_self

end Inv

/-! ## `push` -/

section Push

variable {b : Buddy} {lists : Lists} {P : Set ℕ} {f o : ℕ}

/-- The node of a frame after `push`: only the new block and the old head are written. -/
theorem push_node_of_ne {g : ℕ} (hgf : g ≠ f) (hgh : g ≠ b.heads (Zone.of f) o) :
    (b.push f o).node g = b.node g := by
  simp only [push]
  split_ifs
  · rw [Function.update_of_ne hgf]
  · rw [Function.update_of_ne hgh, Function.update_of_ne hgf]

theorem push_node_self (hne : f ≠ b.heads (Zone.of f) o) :
    (b.push f o).node f = ⟨headTag f, o, noFrame, b.heads (Zone.of f) o⟩ := by
  simp only [push]
  split_ifs
  · rw [Function.update_self]
  · rw [Function.update_of_ne hne, Function.update_self]

theorem push_node_head (hne : b.heads (Zone.of f) o ≠ f)
    (hsome : b.heads (Zone.of f) o ≠ noFrame) :
    (b.push f o).node (b.heads (Zone.of f) o) =
      { b.node (b.heads (Zone.of f) o) with prev := f } := by
  simp only [push, if_neg hsome]
  rw [Function.update_self, Function.update_of_ne hne]

/-- The lists after `push`. -/
def pushed (lists : Lists) (f o : ℕ) : Lists :=
  setAt lists (Zone.of f) o (f :: lists (Zone.of f) o)

theorem mem_pushed {g : ℕ} {z : Zone} {o' : ℕ} :
    g ∈ pushed lists f o z o' ↔ (g = f ∧ z = Zone.of f ∧ o' = o) ∨ g ∈ lists z o' := by
  unfold pushed setAt
  split_ifs with hat
  · obtain ⟨rfl, rfl⟩ := hat
    simp
  · constructor
    · exact Or.inr
    · rintro (⟨-, hz, ho⟩ | hmem)
      · exact absurd ⟨hz, ho⟩ hat
      · exact hmem

theorem covered_pushed {g : ℕ} :
    Covered (pushed lists f o) g ↔ g ∈ block f o ∨ Covered lists g := by
  unfold Covered
  simp only [mem_pushed]
  constructor
  · rintro ⟨z, o', f', ⟨rfl, -, rfl⟩ | hmem, hg⟩
    · exact Or.inl hg
    · exact Or.inr ⟨z, o', f', hmem, hg⟩
  · rintro (hg | ⟨z, o', f', hmem, hg⟩)
    · exact ⟨_, o, f, Or.inl ⟨rfl, rfl, rfl⟩, hg⟩
    · exact ⟨z, o', f', Or.inr hmem, hg⟩

/-- In another frame's node `push` writes at most the back link. -/
theorem push_node_fields {g : ℕ} (hgf : g ≠ f) :
    ((b.push f o).node g).next = (b.node g).next ∧
      ((b.push f o).node g).magic = (b.node g).magic ∧
      ((b.push f o).node g).order = (b.node g).order := by
  by_cases hgh : g = b.heads (Zone.of f) o
  · by_cases hnone : b.heads (Zone.of f) o = noFrame
    · simp [push, hnone, Function.update_of_ne hgf]
    · subst hgh
      rw [push_node_head hgf hnone]
      exact ⟨rfl, rfl, rfl⟩
  · rw [push_node_of_ne hgf hgh]
    exact ⟨rfl, rfl, rfl⟩

/-- The links after `push` thread the pushed lists. -/
theorem Inv.chain_push (h : Inv b lists P) (hfnone : f ≠ noFrame)
    (hfresh : ∀ z o', f ∉ lists z o') (z : Zone) (o' : ℕ) :
    Chain noFrame (fun g => ((b.push f o).node g).prev) (fun g => ((b.push f o).node g).next)
      noFrame ((b.push f o).heads z o') (pushed lists f o z o') := by
  have hfhead : b.heads (Zone.of f) o ≠ f := by
    intro heq
    have hmem := h.head_mem (heq ▸ hfnone)
    rw [heq] at hmem
    exact hfresh _ _ hmem
  have hne : ∀ {z o' g}, g ∈ lists z o' → g ≠ f := fun hg heq => hfresh _ _ (heq ▸ hg)
  by_cases hat : z = Zone.of f ∧ o' = o
  · obtain ⟨rfl, rfl⟩ := hat
    have hheads : (b.push f o').heads (Zone.of f) o' = f := by simp [SaeOS.Buddy.push, setAt]
    have hlist : pushed lists f o' (Zone.of f) o' = f :: lists (Zone.of f) o' := by
      simp [pushed, setAt]
    rw [hheads, hlist]
    refine (h.chain (Zone.of f) o').push (hfresh _ _) hfnone ?_ ?_ ?_ ?_ ?_ (h.nodup _ _)
    · simp only [push_node_self hfhead.symm]
    · simp only [push_node_self hfhead.symm]
    · intro hsome
      simp only [push_node_head hfhead hsome]
    · intro g hg hgh
      simp only [push_node_of_ne (hne hg) hgh]
    · exact fun g hg => (push_node_fields (hne hg)).1
  · have hheads : (b.push f o).heads z o' = b.heads z o' := by
      simp [SaeOS.Buddy.push, setAt, hat]
    have hlist : pushed lists f o z o' = lists z o' := by simp [pushed, setAt, hat]
    rw [hheads, hlist]
    refine (h.chain z o').congr (fun g hg => ?_) fun g hg => (push_node_fields (hne hg)).1
    -- the old head of the pushed list is on that list only
    have hgh : g ≠ b.heads (Zone.of f) o := by
      intro heq
      have hmem := h.head_mem (heq ▸ Inv.ne_noFrame b (h.covered_lt (covered_of_mem hg)))
      rw [← heq] at hmem
      exact hat (h.list_unique hg hmem)
    simp only [push_node_of_ne (hne hg) hgh]

/-- `push` lists a pending block. -/
theorem Inv.push (h : Inv b lists P) (ho : o ≤ maxOrder) (hf : 2 ^ o ∣ f)
    (hsub : block f o ⊆ P) : Inv (b.push f o) (pushed lists f o) (P \ block f o) := by
  have hfP := h.pending f (hsub self_mem_block)
  have hfresh : ∀ z o', f ∉ lists z o' := fun z o' hmem => hfP.2 (covered_of_mem hmem)
  have hrange : f + 2 ^ o ≤ b.frameCount := by
    have hpos := Nat.two_pow_pos o
    have hlast : f + 2 ^ o - 1 ∈ block f o := by
      constructor <;> omega
    have := (h.pending _ (hsub hlast)).1
    omega
  refine
    { chain := h.chain_push (ne_noFrame b hfP.1) hfresh
      nodup := fun z o' => ?_
      tagged := fun z o' g hg => ?_
      count := fun z o' => ?_
      listed := fun z o' g hg => ?_
      disjoint := ?_
      free_iff := fun g hg => ?_
      pending := fun g hg => ?_ }
  · unfold pushed setAt
    split_ifs with hat
    · exact List.nodup_cons.mpr ⟨hfresh _ _, h.nodup _ _⟩
    · exact h.nodup z o'
  · rcases mem_pushed.mp hg with ⟨rfl, rfl, rfl⟩ | hmem
    · have hne : g ≠ b.heads (Zone.of g) o' := by
        intro heq
        have hmem := h.head_mem (heq ▸ ne_noFrame b hfP.1)
        rw [← heq] at hmem
        exact hfresh _ _ hmem
      rw [push_node_self hne]
      exact ⟨rfl, rfl⟩
    · have hne : g ≠ f := fun heq => hfresh _ _ (heq ▸ hmem)
      rw [(push_node_fields hne).2.1, (push_node_fields hne).2.2]
      exact h.tagged z o' g hmem
  · have hlen := h.length_le (Zone.of f) o
    have hbound := b.frameCount_lt
    simp only [SaeOS.Buddy.push, pushed, setAt]
    split_ifs with hat
    · rw [h.count, List.length_cons, Nat.mod_eq_of_lt (by omega)]
    · exact h.count z o'
  · rcases mem_pushed.mp hg with ⟨rfl, rfl, rfl⟩ | hmem
    · exact ⟨ho, hf, rfl, hrange⟩
    · exact h.listed z o' g hmem
  · intro z₁ o₁ z₂ o₂ f₁ hf₁ f₂ hf₂ g hg₁ hg₂
    rcases mem_pushed.mp hf₁ with ⟨rfl, rfl, rfl⟩ | hmem₁ <;>
      rcases mem_pushed.mp hf₂ with ⟨rfl, rfl, rfl⟩ | hmem₂
    · exact ⟨rfl, rfl⟩
    · exact absurd ⟨z₂, o₂, f₂, hmem₂, hg₂⟩ (h.pending g (hsub hg₁)).2
    · exact absurd ⟨z₁, o₁, f₁, hmem₁, hg₁⟩ (h.pending g (hsub hg₂)).2
    · exact h.disjoint z₁ o₁ z₂ o₂ f₁ hmem₁ f₂ hmem₂ g hg₁ hg₂
  · have hiff : (b.push f o).state g = .free ↔ Covered lists g ∨ g ∈ P := h.free_iff g hg
    rw [hiff, covered_pushed, Set.mem_sdiff]
    by_cases hblock : g ∈ block f o
    · simp [hblock, hsub hblock]
    · simp [hblock]
  · rw [covered_pushed, not_or]
    exact ⟨(h.pending g hg.1).1, hg.2, (h.pending g hg.1).2⟩

end Push

/-! ## `unlink` -/

section Unlink

variable {b : Buddy} {lists : Lists} {P : Set ℕ} {f o : ℕ} {z : Zone}

/-- `unlink` redirects the forward link of the block before. -/
theorem unlink_node_next (g : ℕ) : ((b.unlink f z o).node g).next =
    if (b.node f).prev ≠ noFrame ∧ g = (b.node f).prev then (b.node f).next
    else (b.node g).next := by
  simp only [unlink, Function.update_apply]
  grind

/-- `unlink` redirects the back link of the block after. -/
theorem unlink_node_prev (g : ℕ) : ((b.unlink f z o).node g).prev =
    if (b.node f).next ≠ noFrame ∧ g = (b.node f).next then (b.node f).prev
    else (b.node g).prev := by
  simp only [unlink, Function.update_apply]
  grind

/-- `unlink` clears the magic of its own block only. -/
theorem unlink_node_tag {g : ℕ} (hg : g ≠ f) :
    ((b.unlink f z o).node g).magic = (b.node g).magic ∧
      ((b.unlink f z o).node g).order = (b.node g).order := by
  simp only [unlink, Function.update_apply]
  grind

/-- The lists after `unlink`. -/
def unlinked (lists : Lists) (f : ℕ) (z : Zone) (o : ℕ) : Lists :=
  setAt lists z o ((lists z o).erase f)

theorem Inv.mem_unlinked (h : Inv b lists P) (hf : f ∈ lists z o) {g : ℕ} {z' : Zone} {o' : ℕ} :
    g ∈ unlinked lists f z o z' o' ↔ g ∈ lists z' o' ∧ g ≠ f := by
  unfold unlinked setAt
  split_ifs with hat
  · obtain ⟨rfl, rfl⟩ := hat
    rw [(h.nodup _ _).mem_erase_iff, and_comm]
  · refine ⟨fun hg => ⟨hg, fun heq => ?_⟩, And.left⟩
    exact hat (h.list_unique (heq ▸ hg) hf)

theorem Inv.covered_unlinked (h : Inv b lists P) (hf : f ∈ lists z o) {g : ℕ} :
    Covered (unlinked lists f z o) g ↔ Covered lists g ∧ g ∉ block f o := by
  unfold Covered
  simp only [h.mem_unlinked hf]
  constructor
  · rintro ⟨z', o', f', ⟨hmem, hne⟩, hg⟩
    refine ⟨⟨z', o', f', hmem, hg⟩, fun hg' => hne ?_⟩
    exact (h.disjoint z' o' z o f' hmem f hf g hg hg').1
  · rintro ⟨⟨z', o', f', hmem, hg⟩, hnot⟩
    refine ⟨z', o', f', ⟨hmem, fun heq => hnot ?_⟩, hg⟩
    subst heq
    rwa [(h.list_unique hmem hf).2] at hg

/-- The links after `unlink` thread the lists without the block. -/
theorem Inv.chain_unlink (h : Inv b lists P) (hf : f ∈ lists z o) (z' : Zone) (o' : ℕ) :
    Chain noFrame (fun g => ((b.unlink f z o).node g).prev)
      (fun g => ((b.unlink f z o).node g).next) noFrame ((b.unlink f z o).heads z' o')
      (unlinked lists f z o z' o') := by
  have hchain := h.chain z o
  have hnodup : (noFrame :: lists z o).Nodup :=
    List.nodup_cons.mpr ⟨hchain.nil_notMem, h.nodup z o⟩
  have hfirst := hchain.prev_eq_iff hnodup hf
  by_cases hat : z' = z ∧ o' = o
  · obtain ⟨rfl, rfl⟩ := hat
    have hheads : (b.unlink f z' o').heads z' o' =
        if f = b.heads z' o' then (b.node f).next else b.heads z' o' := by
      simp only [unlink, hfirst]
      split_ifs <;> simp [setAt]
    have hlist : unlinked lists f z' o' z' o' = (lists z' o').erase f := by
      simp [unlinked, setAt]
    rw [hheads, hlist]
    refine hchain.erase hnodup hf (fun hne => ?_) (fun hne => ?_) (fun g _ hg => ?_)
      fun g _ hg => ?_
    · simp only [unlink_node_next, ne_eq, hne, not_false_eq_true, and_self, ↓reduceIte]
    · simp only [unlink_node_prev, ne_eq, hne, not_false_eq_true, and_self, ↓reduceIte]
    · simp only [unlink_node_next, hg, and_false, ↓reduceIte]
    · simp only [unlink_node_prev, hg, and_false, ↓reduceIte]
  · have hheads : (b.unlink f z o).heads z' o' = b.heads z' o' := by
      simp only [unlink]
      split_ifs <;> simp [setAt, hat]
    have hlist : unlinked lists f z o z' o' = lists z' o' := by simp [unlinked, setAt, hat]
    rw [hheads, hlist]
    -- the neighbours of the block are on its own list
    refine (h.chain z' o').congr (fun g hg => ?_) fun g hg => ?_
    · have hne : ¬((b.node f).next ≠ noFrame ∧ g = (b.node f).next) := by
        rintro ⟨hsome, rfl⟩
        exact hat (h.list_unique hg (hchain.prev_next hf hsome).1)
      simp only [unlink_node_prev, if_neg hne]
    · have hne : ¬((b.node f).prev ≠ noFrame ∧ g = (b.node f).prev) := by
        rintro ⟨hsome, rfl⟩
        have hmem := (List.mem_cons.mp (hchain.prev_mem hf)).resolve_left hsome
        exact hat (h.list_unique hg hmem)
      simp only [unlink_node_next, if_neg hne]

/-- `unlink` takes a listed block off its list and makes it pending. -/
theorem Inv.unlink (h : Inv b lists P) (hf : f ∈ lists z o) :
    Inv (b.unlink f z o) (unlinked lists f z o) (P ∪ block f o) := by
  refine
    { chain := h.chain_unlink hf
      nodup := fun z' o' => ?_
      tagged := fun z' o' g hg => ?_
      count := fun z' o' => ?_
      listed := fun z' o' g hg => h.listed z' o' g ((h.mem_unlinked hf).mp hg).1
      disjoint := fun z₁ o₁ z₂ o₂ f₁ hf₁ f₂ hf₂ => h.disjoint z₁ o₁ z₂ o₂ f₁
        ((h.mem_unlinked hf).mp hf₁).1 f₂ ((h.mem_unlinked hf).mp hf₂).1
      free_iff := fun g hg => ?_
      pending := fun g hg => ?_ }
  · unfold unlinked setAt
    split_ifs
    · exact (h.nodup _ _).erase f
    · exact h.nodup z' o'
  · obtain ⟨hmem, hne⟩ := (h.mem_unlinked hf).mp hg
    rw [(unlink_node_tag hne).1, (unlink_node_tag hne).2]
    exact h.tagged z' o' g hmem
  · have hlen := h.length_le z o
    have hbound := b.frameCount_lt
    have hpos := List.length_pos_of_mem hf
    have hlt : (lists z o).length - 1 < wordLimit := by omega
    have hsum : (lists z o).length + wordLimit - 1 = (lists z o).length - 1 + wordLimit := by
      omega
    simp only [SaeOS.Buddy.unlink, unlinked, setAt]
    split_ifs with hat
    · rw [h.count, List.length_erase_of_mem hf, hsum, Nat.add_mod_right, Nat.mod_eq_of_lt hlt]
    · exact h.count z' o'
  · have hiff : (b.unlink f z o).state g = .free ↔ Covered lists g ∨ g ∈ P := h.free_iff g hg
    rw [hiff, h.covered_unlinked hf, Set.mem_union]
    by_cases hblock : g ∈ block f o
    · have hcov : Covered lists g := ⟨z, o, f, hf, hblock⟩
      simp [hblock, hcov]
    · simp [hblock]
  · rw [h.covered_unlinked hf]
    rcases hg with hg | hg
    · exact ⟨(h.pending g hg).1, fun hcov => (h.pending g hg).2 hcov.1⟩
    · exact ⟨h.covered_lt ⟨z, o, f, hf, hg⟩, fun hcov => hcov.2 hg⟩

end Unlink

/-! ## The bitmap and the owners -/

section Bitmap

variable {b : Buddy} {lists : Lists} {P : Set ℕ} {f o : ℕ}

/-- Freeing a block of frames that were not free makes it pending. -/
theorem Inv.setStates_free (h : Inv b lists P) (hrange : f + 2 ^ o ≤ b.frameCount)
    (hstate : ∀ g ∈ block f o, b.state g ≠ .free) :
    Inv (b.setStates f (2 ^ o) .free) lists (P ∪ block f o) := by
  refine { h with free_iff := fun g hg => ?_, pending := fun g hg => ?_ }
  · have hiff := h.free_iff g hg
    simp only [setStates, Set.mem_union, mem_block]
    split_ifs with hin
    · simp [hin]
    · rw [hiff]
      simp [hin]
  · rcases hg with hg | hg
    · exact h.pending g hg
    · have hlt : g < b.frameCount := lt_of_lt_of_le hg.2 hrange
      exact ⟨hlt, fun hcov => hstate g hg (h.state_of_covered hcov)⟩

/-- Handing out a pending block takes it out of the pending frames. -/
theorem Inv.setStates_taken (h : Inv b lists P) {s : State} (hs : s ≠ .free)
    (hsub : block f o ⊆ P) : Inv (b.setStates f (2 ^ o) s) lists (P \ block f o) := by
  refine { h with free_iff := fun g hg => ?_, pending := fun g hg => h.pending g hg.1 }
  have hiff := h.free_iff g hg
  simp only [setStates, Set.mem_sdiff]
  split_ifs with hin
  · have hcov := (h.pending g (hsub hin)).2
    simp [hs, hcov, mem_block, hin]
  · rw [hiff]
    simp [mem_block, hin]

/-- What an owner writes into a frame that is not free does not matter. -/
theorem Inv.ownerWrite (h : Inv b lists P) {g : ℕ} {node : FreeNode} (hg : b.state g ≠ .free) :
    Inv { b with node := Function.update b.node g node } lists P := by
  have hne : ∀ {z o f}, f ∈ lists z o → f ≠ g := by
    intro z o f hf heq
    exact hg (heq ▸ h.state_of_covered (covered_of_mem hf))
  refine { h with chain := fun z o => ?_, tagged := fun z o f hf => ?_ }
  · refine (h.chain z o).congr (fun f hf => ?_) fun f hf => ?_ <;>
      simp only [Function.update_of_ne (hne hf)]
  · simp only [Function.update_of_ne (hne hf)]
    exact h.tagged z o f hf

end Bitmap

end SaeOS.Buddy
