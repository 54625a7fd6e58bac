import Mathlib.Data.List.Range
import Mathlib.Data.List.Count
import SaeOS.Mm.BuddyRun

/-!
# `validate` succeeds in every reachable state

The walk of `validate` over a represented state meets exactly the listed blocks, and the listed
frames are a permutation of the free frames of the bitmap, so both totals agree
(`Inv.validate_eq_ok`). Together with the invariant of the runs this gives the statement about
every reachable state.
-/

namespace SaeOS.Buddy

open AlignedBlock LinkedList

variable {b : Buddy} {lists : Lists} {P : Set ℕ} {z : Zone} {o : ℕ}

/-! ## The walk along one list -/

/-- The walk accepts a chain of listed blocks and counts it. -/
theorem Inv.walk_eq_ok (h : Inv b lists P) {l : List ℕ} {budget previous current : ℕ} (seen : ℕ)
    (hchain : Chain noFrame (fun f => (b.node f).prev) (fun f => (b.node f).next) previous current l)
    (hsub : l ⊆ lists z o) (hlen : l.length ≤ budget) :
    b.walk z o budget previous current seen = .ok (seen + l.length) := by
  induction l generalizing budget previous current seen with
  | nil =>
    have hcurrent : current = noFrame := hchain
    cases budget <;> simp [walk, hcurrent]
  | cons f l ih =>
    obtain ⟨rfl, hne, hprev, hrest⟩ := hchain
    have hmem := hsub List.mem_cons_self
    obtain ⟨-, hdvd, hzone, -⟩ := h.listed z o current hmem
    obtain ⟨hmagic, horder⟩ := h.tagged z o current hmem
    have hfree : b.rangeIs current (2 ^ o) .free = true := rangeIs_iff.mpr fun g h1 h2 =>
      h.state_of_covered ⟨z, o, current, hmem, h1, h2⟩
    cases budget with
    | zero => simp at hlen
    | succ budget =>
      have hstep := ih (seen + 1) hrest (fun g hg => hsub (List.mem_cons_of_mem _ hg))
        (by simpa using hlen)
      rw [walk, if_neg hne]
      simp [Nat.mod_eq_zero_of_dvd hdvd, hzone, hfree, hmagic, horder, hprev, hstep]
      omega

/-- One list passes its check. -/
theorem Inv.validateList_eq_ok (h : Inv b lists P) (z : Zone) (o : ℕ) :
    b.validateList z o = .ok ((lists z o).length * 2 ^ o % wordLimit) := by
  have hwalk := h.walk_eq_ok 0 (h.chain z o) (List.Subset.refl _) (h.length_le z o)
  simp only [validateList, hwalk, Nat.zero_add, h.count]
  simp [bind, Except.bind]

/-! ## The listed frames -/

/-- The frames of one list's blocks. -/
def listFrames (lists : Lists) (list : Zone × ℕ) : List ℕ :=
  (lists list.1 list.2).flatMap fun f => List.range' f (2 ^ list.2)

/-- The frames of all listed blocks. -/
def listedFrames (lists : Lists) : List ℕ :=
  allLists.flatMap (listFrames lists)

theorem length_listFrames (lists : Lists) (list : Zone × ℕ) :
    (listFrames lists list).length = (lists list.1 list.2).length * 2 ^ list.2 := by
  simp [listFrames, List.length_flatMap]

theorem mem_listFrames {g : ℕ} {list : Zone × ℕ} :
    g ∈ listFrames lists list ↔ ∃ f ∈ lists list.1 list.2, g ∈ block f list.2 := by
  simp [listFrames, List.mem_flatMap, List.mem_range'_1]

theorem mem_allLists {list : Zone × ℕ} : list ∈ allLists ↔ list.2 ≤ maxOrder := by
  obtain ⟨z, o⟩ := list
  cases z <;> simp [allLists, Nat.lt_succ_iff]

theorem Inv.mem_listedFrames (h : Inv b lists P) {g : ℕ} :
    g ∈ listedFrames lists ↔ Covered lists g := by
  simp only [listedFrames, List.mem_flatMap, mem_listFrames, Covered]
  constructor
  · rintro ⟨⟨z, o⟩, -, hcov⟩
    exact ⟨z, o, hcov⟩
  · rintro ⟨z, o, f, hf, hg⟩
    exact ⟨(z, o), mem_allLists.mpr (h.listed z o f hf).1, f, hf, hg⟩

/-- Listed blocks are disjoint, so no frame is listed twice. -/
theorem Inv.nodup_listedFrames (h : Inv b lists P) : (listedFrames lists).Nodup := by
  have hlists : allLists.Nodup := by decide
  refine List.nodup_flatMap.mpr ⟨fun list _ => List.nodup_flatMap.mpr ⟨fun f _ => ?_, ?_⟩, ?_⟩
  · exact List.nodup_range'
  · refine (h.nodup list.1 list.2).imp_of_mem fun {f f'} hf hf' hne g hg hg' => hne ?_
    rw [List.mem_range'_1] at hg hg'
    exact (h.disjoint _ _ _ _ f hf f' hf' g hg hg').1
  · refine hlists.imp fun {list list'} hne g hg hg' => hne ?_
    obtain ⟨f, hf, hgf⟩ := mem_listFrames.mp hg
    obtain ⟨f', hf', hgf'⟩ := mem_listFrames.mp hg'
    obtain ⟨rfl, ho⟩ := h.disjoint _ _ _ _ f hf f' hf' g hgf hgf'
    exact Prod.ext (h.list_unique hf hf').1 ho

/-- The listed frames are the free frames of the bitmap. -/
theorem Inv.length_listedFrames (h : Inv b lists ∅) :
    (listedFrames lists).length = (List.range b.frameCount).countP (b.state · == .free) := by
  rw [List.countP_eq_length_filter]
  refine List.Perm.length_eq ((List.perm_ext_iff_of_nodup h.nodup_listedFrames
    (List.nodup_range.filter _)).mpr fun g => ?_)
  rw [h.mem_listedFrames, List.mem_filter, List.mem_range, beq_iff_eq]
  constructor
  · exact fun hcov => ⟨h.covered_lt hcov, h.state_of_covered hcov⟩
  · rintro ⟨hlt, hfree⟩
    exact ((h.free_iff g hlt).mp hfree).resolve_right (Set.notMem_empty g)

/-! ## The whole check -/

/-- Adding up list checks that all succeed, without overflow. -/
theorem foldlM_ok_add {ι : Type} {check : ι → Except String ℕ} {size : ι → ℕ} {l : List ι}
    (start : ℕ) (hcheck : ∀ x ∈ l, check x = .ok (size x % wordLimit))
    (hsum : start + (l.map size).sum < wordLimit) :
    l.foldlM (fun total x => do let n ← check x; pure ((total + n) % wordLimit)) start =
      (.ok (start + (l.map size).sum) : Except String ℕ) := by
  induction l generalizing start with
  | nil => rfl
  | cons x l ih =>
    simp only [List.map_cons, List.sum_cons] at hsum
    have hx : size x % wordLimit = size x := Nat.mod_eq_of_lt (by omega)
    have hstart : (start + size x) % wordLimit = start + size x := Nat.mod_eq_of_lt (by omega)
    rw [List.foldlM_cons, hcheck x List.mem_cons_self, hx]
    simp only [bind, Except.bind, pure, Except.pure, hstart]
    rw [List.map_cons, List.sum_cons, ← Nat.add_assoc]
    exact ih _ (fun y hy => hcheck y (List.mem_cons_of_mem _ hy)) (by omega)

/-- The blocks on the lists add up to the free frames of the bitmap. -/
theorem Inv.sum_lists (h : Inv b lists ∅) :
    (allLists.map fun list => (lists list.1 list.2).length * 2 ^ list.2).sum =
      (List.range b.frameCount).countP (b.state · == .free) := by
  rw [← h.length_listedFrames, listedFrames, List.length_flatMap]
  simp only [length_listFrames]

theorem countP_free_lt (b : Buddy) :
    (List.range b.frameCount).countP (b.state · == .free) < wordLimit := by
  have hle := List.countP_le_length (p := (b.state · == .free)) (l := List.range b.frameCount)
  rw [List.length_range] at hle
  have := b.frameCount_lt
  omega

theorem Inv.foldlM_validateList (h : Inv b lists ∅) :
    allLists.foldlM (fun listed list => do
      let frames ← b.validateList list.1 list.2
      pure ((listed + frames) % wordLimit)) 0 =
        .ok (0 + (allLists.map fun list => (lists list.1 list.2).length * 2 ^ list.2).sum) := by
  refine foldlM_ok_add 0 (fun list _ => h.validateList_eq_ok list.1 list.2) ?_
  rw [h.sum_lists, Nat.zero_add]
  exact countP_free_lt b

/-- `validate` accepts every represented state with nothing pending. -/
theorem Inv.validate_eq_ok (h : Inv b lists ∅) : b.validate = .ok () := by
  rw [validate, h.foldlM_validateList, Nat.zero_add, h.sum_lists]
  simp [bind, Except.bind]

/-! ## Runs -/

/-- What happens to the allocator: calls, and owners writing into frames that are not free. -/
inductive Op
  | allocate (order : ℕ) (zones : List Zone)
  | release (frame order : ℕ)
  | insertReservedRange (frame stop : ℕ)
  | ownerWrite (frame : ℕ) (node : FreeNode)

/-- The state right after the lists are built over some bitmap. -/
def Initial (b : Buddy) : Prop :=
  ∃ b₀ : Buddy, b = b₀.build

/-- One call, or one write of arbitrary node bytes into a frame that is not free. -/
def Step (b : Buddy) : Op → Buddy → Prop
  | .allocate order zones, b' => b' = (b.allocate order zones).2
  | .release frame order, b' => b' = (b.release frame order).2
  | .insertReservedRange frame stop, b' => b' = b.insertReservedRange frame stop
  | .ownerWrite frame node, b' =>
    b.state frame ≠ .free ∧ b' = { b with node := Function.update b.node frame node }

/-- Every step keeps the invariant. -/
theorem Kept.step {R : Lists → Prop} {b' : Buddy} {op : Op} (hR : Kept R) (h : Listed R b ∅)
    (hstep : b.Step op b') : Listed R b' ∅ := by
  cases op with
  | allocate order zones => exact hstep ▸ hR.allocate h order zones
  | release frame order => exact hstep ▸ hR.release h frame order
  | insertReservedRange frame stop => exact hstep ▸ hR.insertReservedRange h frame stop
  | ownerWrite frame node =>
    obtain ⟨hstate, rfl⟩ := hstep
    obtain ⟨lists, hinv, hlists⟩ := h
    exact ⟨lists, hinv.ownerWrite hstate, hlists⟩

/-- What holds of the free lists between calls, read off the links themselves. -/
structure Valid (b : Buddy) : Prop where
  validate : b.validate = .ok ()
  /-- Each list is finite and ends in the null link, with correct back links. -/
  chain : ∀ z o, Chain noFrame (fun f => (b.node f).prev) (fun f => (b.node f).next) noFrame
    (b.heads z o) (b.freeList z o)
  nodup : ∀ z o, (b.freeList z o).Nodup
  count : ∀ z o, b.counts z o = (b.freeList z o).length
  aligned : ∀ z o, ∀ f ∈ b.freeList z o, 2 ^ o ∣ f ∧ f + 2 ^ o ≤ b.frameCount
  zone : ∀ z o, ∀ f ∈ b.freeList z o, ∀ g ∈ block f o, Zone.of g = z
  free : ∀ z o, ∀ f ∈ b.freeList z o, ∀ g ∈ block f o, b.state g = .free
  disjoint : ∀ z o z' o', ∀ f ∈ b.freeList z o, ∀ f' ∈ b.freeList z' o',
    (z, o, f) ≠ (z', o', f') → Disjoint (block f o) (block f' o')
  covered : ∀ g, g < b.frameCount → b.state g = .free →
    ∃! list : Zone × ℕ × ℕ, list.2.2 ∈ b.freeList list.1 list.2.1 ∧ g ∈ block list.2.2 list.2.1

/-- An aligned block of order at most `maxOrder` does not cross the zone boundary. -/
theorem zone_of_mem_block {f g : ℕ} (ho : o ≤ maxOrder) (hdvd : 2 ^ o ∣ f) (hg : g ∈ block f o) :
    Zone.of g = Zone.of f := by
  have hboundary : 2 ^ o ∣ dma32Frames := pow_dvd_pow 2 (ho.trans (by decide))
  obtain ⟨k, rfl⟩ := hdvd
  obtain ⟨n, hn⟩ := hboundary
  obtain ⟨h1, h2⟩ := hg
  have hiff : g < dma32Frames ↔ 2 ^ o * k < dma32Frames := by
    rw [hn]
    constructor
    · exact fun hlt => lt_of_le_of_lt h1 hlt
    · intro hlt
      have hkn : k + 1 ≤ n := Nat.lt_of_mul_lt_mul_left hlt
      calc g < 2 ^ o * k + 2 ^ o := h2
        _ = 2 ^ o * (k + 1) := by ring
        _ ≤ 2 ^ o * n := Nat.mul_le_mul_left _ hkn
  simp only [Zone.of, hiff]

theorem Inv.valid (h : Inv b lists ∅) : b.Valid := by
  have hlists : b.freeList = lists := by
    funext z o
    exact h.freeList_eq z o
  refine
    { validate := h.validate_eq_ok
      chain := hlists ▸ h.chain
      nodup := hlists ▸ h.nodup
      count := hlists ▸ h.count
      aligned := fun z o f hf => ?_
      zone := fun z o f hf g hg => ?_
      free := fun z o f hf g hg => ?_
      disjoint := ?_
      covered := fun g hlt hfree => ?_ }
  all_goals simp only [hlists] at *
  · have := h.listed z o f hf
    exact ⟨this.2.1, this.2.2.2⟩
  · obtain ⟨ho, hdvd, hz, -⟩ := h.listed z o f hf
    rw [zone_of_mem_block ho hdvd hg, hz]
  · exact h.state_of_covered ⟨z, o, f, hf, hg⟩
  · intro z o z' o' f hf f' hf' hne
    refine Set.disjoint_left.mpr fun g hg hg' => hne ?_
    obtain ⟨rfl, rfl⟩ := h.disjoint z o z' o' f hf f' hf' g hg hg'
    rw [(h.list_unique hf hf').1]
  · obtain ⟨z, o, f, hf, hg⟩ := ((h.free_iff g hlt).mp hfree).resolve_right (Set.notMem_empty g)
    refine ⟨(z, o, f), ⟨hf, hg⟩, ?_⟩
    rintro ⟨z', o', f'⟩ ⟨hf', hg'⟩
    simp only at hf' hg'
    obtain ⟨rfl, rfl⟩ := h.disjoint z' o' z o f' hf' f hf g hg' hg
    rw [(h.list_unique hf hf').1]

/-- From any bitmap, after any sequence of calls and any writes of owners into their own frames,
`validate` succeeds and the free lists are what the bitmap says. -/
theorem reachable_valid (h : Run.Reachable Initial Step b) : b.Valid := by
  have hlisted : Listed (fun _ => True) b ∅ := by
    refine h.invariant (P := fun b => Listed (fun _ => True) b ∅) ?_ ?_
    · rintro b ⟨b₀, rfl⟩
      exact Listed.build b₀ trivial fun _ _ _ _ _ _ => trivial
    · exact fun b op b' hb hstep => kept_true.step hb hstep
  obtain ⟨lists, hinv, -⟩ := hlisted
  exact hinv.valid

/-- Two frames, both handed out, with nothing in their first bytes. -/
def twoAllocated : Buddy :=
  { heads := fun _ _ => noFrame
    counts := fun _ _ => 0
    frameCount := 2
    noOverflow := by decide
    state := fun _ => .allocated
    node := fun _ => ⟨0, 0, 0, 0⟩ }

/-- The owner of frame 1 writes an imitation of a free node there, and the block of both frames is
released. -/
def forgedNode : Buddy :=
  { twoAllocated.build with
    node := Function.update twoAllocated.build.node 1 ⟨headTag 1, 0, noFrame, noFrame⟩ }

theorem reachable_valid_forgedNode : ((forgedNode.release 0 1).2).Valid := by
  have hbuilt : Run.Reachable Initial Step twoAllocated.build := .start ⟨twoAllocated, rfl⟩
  have hforged : Run.Reachable Initial Step forgedNode :=
    .next hbuilt (show Step _ (.ownerWrite 1 ⟨headTag 1, 0, noFrame, noFrame⟩) _ from
      ⟨by decide, rfl⟩)
  exact reachable_valid (.next hforged (show Step _ (.release 0 1) _ from rfl))

end SaeOS.Buddy
