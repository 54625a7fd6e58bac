import SaeOS.Mm.BuddyValidate

/-!
# Isolating one free frame

`isolate` finds the block around a free frame by probing candidate heads for a tag stored in
ordinary memory. A frame inside a listed block may still hold bytes its last owner wrote, so a
probe below the block's own order can meet a tag that nobody listed.

`NoForgedHead b frame` says that every probe that succeeds is of a listed block. Under it `isolate`
takes exactly the frame out of the lists; without it, `isolate` unlinks through the forged node
(`Inv.isolateExact_iff`). The runs here extend the allocator's with the two callers of `isolate`,
which reserve the frame or hand it out.
-/

namespace SaeOS.Buddy

open AlignedBlock LinkedList

variable {b : Buddy} {lists : Lists} {R : Lists → Prop} {frame : ℕ}

/-- Every candidate head of `frame` that passes the probe of `isolate` is on its free list. -/
def NoForgedHead (b : Buddy) (frame : ℕ) : Prop :=
  ∀ order ≤ maxOrder, b.isFreeHead (alignDown frame order) order = true →
    alignDown frame order ∈ b.freeList (Zone.of (alignDown frame order)) order

/-- `isolate` does what it is for: it finds the listed block around the frame, and afterwards the
lists represent the same free frames without it, with exact counts. -/
structure IsolateExact (b : Buddy) (frame : ℕ) : Prop where
  found : ∃ head order, b.findHead frame = some (head, order) ∧
    head ∈ b.freeList (Zone.of head) order ∧ frame ∈ block head order
  result : ∃ b', b.isolate frame = some (true, b') ∧ b'.state = b.state ∧
    b'.frameCount = b.frameCount ∧ Inv b' b'.freeList {frame}

/-! ## Probing -/

/-- `findHead` returns the smallest order whose probe succeeds. -/
theorem findHead_eq_some {head order : ℕ} (h : b.findHead frame = some (head, order)) :
    order ≤ maxOrder ∧ head = alignDown frame order ∧
      b.isFreeHead (alignDown frame order) order = true ∧
      ∀ k < order, b.isFreeHead (alignDown frame k) k = false := by
  obtain ⟨o, hfind, heq⟩ := Option.map_eq_some_iff.mp h
  obtain ⟨hprobe, hmem, hleast⟩ := List.find?_range_eq_some.mp hfind
  cases heq
  rw [List.mem_range] at hmem
  exact ⟨by omega, rfl, hprobe, fun k hk => by simpa using hleast k hk⟩

/-- A covered frame has a head to find. -/
theorem Inv.exists_findHead {P : Set ℕ} (h : Inv b lists P) (hcov : Covered lists frame) :
    ∃ head order, b.findHead frame = some (head, order) := by
  obtain ⟨z, o, f, hf, hin⟩ := hcov
  obtain ⟨ho, hdvd, -, -⟩ := h.listed z o f hf
  have hprobe : b.isFreeHead (alignDown frame o) o = true := by
    rw [alignDown_eq hdvd hin]
    exact h.isFreeHead_of_mem hf
  cases hfind : (List.range (maxOrder + 1)).find? fun order =>
      b.isFreeHead (alignDown frame order) order with
  | none =>
    have hnot := List.find?_eq_none.mp hfind o (List.mem_range.mpr (by omega))
    exact absurd hprobe hnot
  | some order => exact ⟨alignDown frame order, order, by rw [findHead, hfind]; rfl⟩

/-- Without forged heads the block that is found is listed and contains the frame. -/
theorem Inv.findHead_listed (h : Inv b lists ∅) {head order : ℕ}
    (hfind : b.findHead frame = some (head, order)) (hnoforged : NoForgedHead b frame) :
    head ∈ lists (Zone.of head) order ∧ frame ∈ block head order := by
  obtain ⟨ho, rfl, hprobe, -⟩ := findHead_eq_some hfind
  have hmem := hnoforged order ho hprobe
  rw [h.freeList_eq] at hmem
  exact ⟨hmem, mem_block_alignDown⟩

/-! ## Splitting -/

/-- The splitting loop of `isolate` lists everything of the pending block except the frame: halves, each
with the other half holding the frame. -/
theorem Kept.splitAround {head current : ℕ} (hR : Kept R) (h : Listed R b (block head current))
    (hdvd : 2 ^ current ∣ head) (hmax : current ≤ maxOrder) (hin : frame ∈ block head current) :
    Listed R (splitAround frame current b head) {frame} := by
  induction current generalizing b head with
  | zero =>
    rw [block_zero] at h hin
    rwa [← Set.mem_singleton_iff.mp hin] at h
  | succ current ih =>
    obtain ⟨lists, hinv, hlists⟩ := h
    obtain ⟨hlow, hhigh⟩ := dvd_add_half hdvd
    have hhalves := block_succ (f := head) (o := current)
    have hbuddy := buddy_of_halves hdvd
    simp only [Buddy.splitAround]
    split_ifs with hge
    · have hpush := hinv.push (by omega) hlow (hhalves ▸ Set.subset_union_left)
      rw [block_succ_diff_lower] at hpush
      have hupper : frame ∈ block (head + 2 ^ current) current := by
        rw [block_succ] at hin
        exact hin.resolve_left fun hlower => absurd hlower.2 (by omega)
      refine ih ⟨_, hpush, hR.pushed hlists fun _ => ?_⟩ hhigh (by omega) hupper
      rw [hbuddy]
      exact hinv.notMem_of_pending hin hupper
    · have hpush := hinv.push (by omega) hhigh (hhalves ▸ Set.subset_union_right)
      rw [block_succ_diff_upper] at hpush
      have hlower : frame ∈ block head current := by
        rw [block_succ] at hin
        exact hin.resolve_right fun hupper => absurd hupper.1 (by omega)
      refine ih ⟨_, hpush, hR.pushed hlists fun _ => ?_⟩ hlow (by omega) hlower
      rw [← hbuddy, buddy_buddy]
      exact hinv.notMem_of_pending hin hlower

theorem splitAround_frame (frame current : ℕ) (b : Buddy) (head : ℕ) :
    (splitAround frame current b head).state = b.state ∧
      (splitAround frame current b head).frameCount = b.frameCount := by
  induction current generalizing b head with
  | zero => exact ⟨rfl, rfl⟩
  | succ current ih =>
    simp only [Buddy.splitAround]
    split_ifs <;> exact ih _ _

/-- The invariant may always be read off the links themselves. -/
theorem Inv.of_lists {P : Set ℕ} (h : Inv b lists P) : Inv b b.freeList P := by
  have hlists : b.freeList = lists := by
    funext z o
    exact h.freeList_eq z o
  rwa [hlists]

/-- On a free frame without forged heads, `isolate` takes the listed block around it apart. -/
theorem Kept.isolate (hR : Kept R) (h : Inv b lists ∅) (hlists : R lists) (hlt : frame < b.frameCount)
    (hfree : b.state frame = .free) (hnoforged : NoForgedHead b frame) :
    ∃ head order b₁, b.findHead frame = some (head, order) ∧ head ∈ lists (Zone.of head) order ∧
      frame ∈ block head order ∧ b.isolate frame = some (true, b₁) ∧ b₁.state = b.state ∧
      b₁.frameCount = b.frameCount ∧ Listed R b₁ {frame} := by
  have hcov := ((h.free_iff frame hlt).mp hfree).resolve_right (Set.notMem_empty frame)
  obtain ⟨head, order, hfind⟩ := h.exists_findHead hcov
  obtain ⟨hmem, hin⟩ := h.findHead_listed hfind hnoforged
  obtain ⟨ho, hdvd, -, -⟩ := h.listed _ order head hmem
  have hunlink := h.unlink hmem
  rw [Set.empty_union] at hunlink
  have hsplit := hR.splitAround ⟨_, hunlink, hR.unlinked h hlists hmem⟩ hdvd ho hin
  obtain ⟨hstate, hcount⟩ := splitAround_frame frame order (b.unlink head (Zone.of head) order) head
  refine ⟨head, order, _, hfind, hmem, hin, ?_, hstate, hcount, hsplit⟩
  have hguard : ¬(frame ≥ b.frameCount ∨ b.state frame ≠ .free) := by
    rw [not_or, not_not]
    exact ⟨not_le.mpr hlt, hfree⟩
  rw [Buddy.isolate, if_neg hguard, hfind]
  rfl

/-- On a free frame without forged heads, `isolate` is exact. -/
theorem Inv.isolateExact (h : Inv b lists ∅) (hlt : frame < b.frameCount)
    (hfree : b.state frame = .free) (hnoforged : NoForgedHead b frame) : IsolateExact b frame := by
  obtain ⟨head, order, b₁, hfind, hmem, hin, hisolate, hstate, hcount, lists', hsplit, -⟩ :=
    kept_true.isolate h trivial hlt hfree hnoforged
  exact ⟨⟨head, order, hfind, by rwa [h.freeList_eq], hin⟩, b₁, hisolate, hstate, hcount,
    hsplit.of_lists⟩

/-- An exact `isolate` met no forged head: below the order it found all probes fail, and a probe
above it can only succeed at a listed block. -/
theorem Inv.noForgedHead (h : Inv b lists ∅) (hexact : IsolateExact b frame) :
    NoForgedHead b frame := by
  obtain ⟨head, order, hfind, hmem, hin⟩ := hexact.found
  obtain ⟨-, -, -, hleast⟩ := findHead_eq_some hfind
  rw [h.freeList_eq] at hmem
  intro k hk hprobe
  have hle : order ≤ k := by
    by_contra hlt
    rw [hleast k (not_le.mp hlt)] at hprobe
    cases hprobe
  simp only [isFreeHead, Bool.and_eq_true, decide_eq_true_eq, beq_iff_eq] at hprobe
  obtain ⟨⟨⟨hrange, hfree⟩, -⟩, htag⟩ := hprobe
  have hlt : alignDown frame k < b.frameCount := lt_of_lt_of_le (self_mem_block (o := k)).2 hrange
  obtain ⟨z, o, f, hf, hcov⟩ := ((h.free_iff _ hlt).mp hfree).resolve_right (Set.notMem_empty _)
  obtain ⟨-, hdvd, hz, -⟩ := h.listed z o f hf
  rcases le_or_gt o k with hok | hko
  · -- the candidate heads the listed block around it
    have heq : f = alignDown frame k := by
      rw [← alignDown_eq hdvd hcov]
      exact alignDown_eq ((pow_dvd_pow 2 hok).trans alignDown_dvd) self_mem_block
    subst heq
    have ho : o = k := by rw [← (h.tagged z o _ hf).2, htag]
    rw [ho] at hf
    rwa [h.freeList_eq, hz]
  · -- a larger block around the candidate would contain the frame as well
    have hnested := block_subset alignDown_dvd hdvd hko.le self_mem_block hcov
    have hsame := h.disjoint _ _ _ _ head hmem f hf frame hin (hnested mem_block_alignDown)
    omega

/-- `isolate` on a free frame is exact if and only if no candidate head is forged. -/
theorem Inv.isolateExact_iff (h : Inv b lists ∅) (hlt : frame < b.frameCount)
    (hfree : b.state frame = .free) : IsolateExact b frame ↔ NoForgedHead b frame :=
  ⟨h.noForgedHead, h.isolateExact hlt hfree⟩

/-! ## Runs -/

/-- The operations of the allocator, with the callers of `isolate`: `reserve` and the bounded
allocation isolate a free frame and then take it out of the free state. -/
inductive IsolateOp
  | plain (op : Op)
  | take (frame : ℕ) (state : State)

/-- One step; `take` isolates a free frame, which may panic, and marks it. -/
def IsolateStep (b : Buddy) : IsolateOp → Buddy → Prop
  | .plain op, b' => b.Step op b'
  | .take frame state, b' =>
    frame < b.frameCount ∧ b.state frame = .free ∧ state ≠ .free ∧
      ∃ b₁, b.isolate frame = some (true, b₁) ∧ b' = b₁.setStates frame 1 state

/-- The condition under which an isolating step does what it should. -/
def NoForgedStep (b : Buddy) : IsolateOp → Prop
  | .plain _ => True
  | .take frame _ => NoForgedHead b frame

theorem Kept.isolateStep {b' : Buddy} {op : IsolateOp} (hR : Kept R) (h : Listed R b ∅)
    (hguard : b.NoForgedStep op) (hstep : b.IsolateStep op b') : Listed R b' ∅ := by
  cases op with
  | plain op => exact hR.step h hstep
  | take frame state =>
    obtain ⟨lists, hinv, hlists⟩ := h
    obtain ⟨hlt, hfree, hstate, b₁, hisolate, rfl⟩ := hstep
    obtain ⟨-, -, b₂, -, -, -, hisolate', -, -, lists', hsplit, hlists'⟩ :=
      hR.isolate hinv hlists hlt hfree hguard
    rw [hisolate] at hisolate'
    cases hisolate'
    have htaken := hsplit.setStates_taken (f := frame) (o := 0) hstate (by rw [block_zero])
    rw [block_zero, Set.sdiff_self] at htaken
    exact ⟨lists', htaken, hlists'⟩

/-- In every state reached by steps that isolate no frame with a forged candidate head, and for
every free frame, `isolate` is exact if and only if the frame has no forged candidate head. -/
theorem reachable_isolateExact_iff
    (h : Run.Reachable Initial (Run.Guarded NoForgedStep IsolateStep) b)
    (hlt : frame < b.frameCount) (hfree : b.state frame = .free) :
    IsolateExact b frame ↔ NoForgedHead b frame := by
  have hlisted : Listed (fun _ => True) b ∅ := by
    refine h.invariant (P := fun b => Listed (fun _ => True) b ∅) ?_ ?_
    · rintro b ⟨b₀, rfl⟩
      exact Listed.build b₀ trivial fun _ _ _ _ _ _ => trivial
    · exact fun b op b' hb hstep => kept_true.isolateStep hb hstep.1 hstep.2
  obtain ⟨lists, hinv, -⟩ := hlisted
  exact hinv.isolateExact_iff hlt hfree

/-- Frame 1 of the released block still holds the node its owner forged: `isolate` takes it for the
head of a free block, unlinks through it, and the list count of order 0 wraps below zero. -/
theorem forgedNode_not_isolateExact :
    Run.Reachable Initial IsolateStep (forgedNode.release 0 1).2 ∧
      1 < (forgedNode.release 0 1).2.frameCount ∧
      (forgedNode.release 0 1).2.state 1 = .free ∧
      ((forgedNode.release 0 1).2.isolate 1).map (fun r => r.2.counts .dma32 0) =
        some (wordLimit - 1) ∧
      ¬IsolateExact (forgedNode.release 0 1).2 1 := by
  have hbuilt : Run.Reachable Initial IsolateStep twoAllocated.build := .start ⟨twoAllocated, rfl⟩
  have hforged : Run.Reachable Initial IsolateStep forgedNode :=
    .next hbuilt (show IsolateStep _ (.plain (.ownerWrite 1 ⟨headTag 1, 0, noFrame, noFrame⟩)) _
      from ⟨by decide, rfl⟩)
  refine ⟨.next hforged (show IsolateStep _ (.plain (.release 0 1)) _ from rfl), by decide,
    by decide, by decide +kernel, fun hexact => ?_⟩
  obtain ⟨head, order, hfind, hmem, -⟩ := hexact.found
  have hfound : (forgedNode.release 0 1).2.findHead 1 = some (1, 0) := by decide +kernel
  rw [hfound] at hfind
  cases hfind
  exact absurd hmem (by decide +kernel)

/-- The state in which the block of two frames was released without a forged node. -/
theorem reachable_isolateExact_iff_twoAllocated :
    IsolateExact (twoAllocated.build.release 0 1).2 1 := by
  have hreach : Run.Reachable Initial (Run.Guarded NoForgedStep IsolateStep)
      (twoAllocated.build.release 0 1).2 :=
    .next (.start ⟨twoAllocated, rfl⟩)
      (show Run.Guarded NoForgedStep IsolateStep _ (.plain (.release 0 1)) _ from ⟨trivial, rfl⟩)
  refine (reachable_isolateExact_iff hreach (by decide) (by decide)).mpr ?_
  unfold NoForgedHead
  decide +kernel

end SaeOS.Buddy
