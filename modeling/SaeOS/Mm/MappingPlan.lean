import SaeOS.Mm.MappingModel

/-!
# Planned and installed mappings

The chunks that `walk_range` visits are one list (`chunks`), whatever the visitor does with them
(`walkRange_eq`), and for a page-aligned range they cover it, piece after piece. Planning, checking
and installing are three folds over that list, so they agree.
-/

namespace SaeOS.Mapping

open Paging (pageSize kernelVirtBase)

section Chunks

variable (stop : ℕ) (direct : Bool) (kind : PhysicalMemoryKind) (gigabytePages : Bool)

/-- The chunks that `walk_range` visits, in order. -/
def chunks (start : ℕ) : List MappingChunk :=
  match walkRange stop direct kind gigabytePages start (fun l chunk => .ok (l ++ [chunk])) [] with
  | .ok l => l
  | .error _ => []

/-- The size of the page that is chosen at an address. -/
def sizeAt (physical : ℕ) : ℕ :=
  (leafPage physical (stop - physical) kind gigabytePages).1

/-- The chunk on a piece of the range. -/
def chunkAt (r : Region) : MappingChunk where
  physicalStart := r.start
  virtualStart := if direct then kernelVirtBase + r.start else r.start
  size := r.size
  pageSize := (leafPage r.start (stop - r.start) kind gigabytePages).2

end Chunks

section Walk

variable {σ : Type} {start stop : ℕ} {direct : Bool} {kind : PhysicalMemoryKind}
  {gigabytePages : Bool}

theorem sizeAt_pos (physical : ℕ) : 0 < sizeAt stop kind gigabytePages physical :=
  leafPage_pos _ _ _ _

/-- The loop goes through the pieces of the range. -/
theorem walkFrom_eq (hlimit : stop ≤ fourLevelLimit)
    (visit : σ → MappingChunk → Except MappingError σ) (physical : ℕ) (s : σ) :
    walkFrom stop direct kind gigabytePages visit physical s =
      ((Region.pieces (sizeAt stop kind gigabytePages) stop physical).map
        (chunkAt stop direct kind gigabytePages)).foldlM visit s := by
  induction physical using Region.pieces.induct (sizeAt stop kind gigabytePages) stop
    generalizing s with
  | case1 physical h ih =>
    have hcanonical : physical < fourLevelLimit := Nat.lt_of_lt_of_le h.1 hlimit
    have hvirtual : (if direct then directVirtualAddress physical
        else identityVirtualAddress physical) =
        some (if direct then kernelVirtBase + physical else physical) := by
      unfold directVirtualAddress identityVirtualAddress
      rw [if_pos hcanonical, if_pos hcanonical]
      split_ifs <;> rfl
    rw [walkFrom, if_pos h.1, Region.pieces_of_lt h.1 h.2, List.map_cons, List.foldlM_cons]
    dsimp only
    rw [hvirtual]
    cases hvisit : visit s (chunkAt stop direct kind gigabytePages
        ⟨physical, sizeAt stop kind gigabytePages physical⟩) with
    | error error => simp only [chunkAt, sizeAt] at hvisit; simp only [hvisit]; rfl
    | ok s => simp only [chunkAt, sizeAt] at hvisit; simp only [hvisit]; exact ih s
  | case2 physical h =>
    have hge : ¬ physical < stop := fun hlt => h ⟨hlt, sizeAt_pos physical⟩
    rw [walkFrom, if_neg hge, Region.pieces_of_ge (Nat.not_lt.mp hge)]
    rfl

theorem foldlM_collect (l done : List MappingChunk) :
    l.foldlM (fun l chunk => (.ok (l ++ [chunk]) : Except MappingError _)) done =
      .ok (done ++ l) := by
  induction l generalizing done with
  | nil => rw [List.append_nil]; rfl
  | cons chunk l ih =>
    rw [List.foldlM_cons]
    refine (ih (done ++ [chunk])).trans ?_
    rw [List.append_assoc, List.singleton_append]

theorem chunks_eq (hlt : start < stop) (hlimit : stop ≤ fourLevelLimit) :
    chunks stop direct kind gigabytePages start =
      (Region.pieces (sizeAt stop kind gigabytePages) stop start).map
        (chunkAt stop direct kind gigabytePages) := by
  rw [chunks, walkRange, if_neg (by omega), if_neg (by omega), walkFrom_eq hlimit, foldlM_collect,
    List.nil_append]

/-- Every visitor is shown the same chunks, up to the first one it stops at. -/
theorem walkRange_eq (hlt : start < stop) (hlimit : stop ≤ fourLevelLimit)
    (visit : σ → MappingChunk → Except MappingError σ) (s : σ) :
    walkRange stop direct kind gigabytePages start visit s =
      (chunks stop direct kind gigabytePages start).foldlM visit s := by
  rw [walkRange, if_neg (by omega), if_neg (by omega), walkFrom_eq hlimit, chunks_eq hlt hlimit]

/-- A range is refused before any of it is visited. -/
theorem walkRange_refused (direct : Bool) (kind : PhysicalMemoryKind) (gigabytePages : Bool)
    (h : ¬ (start < stop ∧ stop ≤ fourLevelLimit)) :
    ∃ error, ∀ {σ : Type} (visit : σ → MappingChunk → Except MappingError σ) (s : σ),
      walkRange stop direct kind gigabytePages start visit s = .error error := by
  by_cases hempty : start ≥ stop
  · exact ⟨.emptyRange, fun _ _ => by rw [walkRange, if_pos hempty]⟩
  · exact ⟨.nonCanonicalRange, fun _ _ => by
      rw [walkRange, if_neg hempty, if_pos (by omega)]⟩

/-! ## What the chunks are -/

/-- The page that is chosen is aligned, and ends within a page-aligned range. -/
theorem leafPage_spec {physical : ℕ} (hphysical : physical % pageSize = 0)
    (hstop : stop % pageSize = 0) (hlt : physical < stop) :
    physical % sizeAt stop kind gigabytePages physical = 0 ∧
      physical + sizeAt stop kind gigabytePages physical ≤ stop ∧
      (physical + sizeAt stop kind gigabytePages physical) % pageSize = 0 := by
  unfold sizeAt leafPage
  unfold pageSize at *
  split_ifs with hgigabyte htwo
  · dsimp only
    unfold gigabyte at *
    omega
  · dsimp only
    unfold twoMib at *
    omega
  · dsimp only
    omega

theorem pieces_cover (hstart : start % pageSize = 0) (hstop : stop % pageSize = 0)
    (hlt : start < stop) :
    Region.Consecutive start stop (Region.pieces (sizeAt stop kind gigabytePages) stop start) :=
  Region.pieces_consecutive (P := fun x => x % pageSize = 0)
    (fun x hx hlt => ⟨sizeAt_pos x, (leafPage_spec hx hstop hlt).2⟩) hstart hlt.le

theorem map_region_chunkAt (l : List Region) :
    (l.map (chunkAt stop direct kind gigabytePages)).map MappingChunk.region = l := by
  rw [List.map_map]
  exact List.map_id l

/-- What holds of each chunk of a range. -/
structure WellFormed (direct : Bool) (kind : PhysicalMemoryKind) (gigabytePages : Bool)
    (chunk : MappingChunk) : Prop where
  size : chunk.size = chunk.pageSize.bytes
  physicalAligned : chunk.physicalStart % chunk.size = 0
  virtualAligned : chunk.virtualStart % chunk.size = 0
  virtualStart : chunk.virtualStart =
    if direct then kernelVirtBase + chunk.physicalStart else chunk.physicalStart
  small : kind = .mmio → chunk.pageSize = .fourKiB
  supported : chunk.pageSize = .oneGiB → gigabytePages = true

theorem chunks_wellFormed (hstart : start % pageSize = 0) (hstop : stop % pageSize = 0)
    (hlt : start < stop) (hlimit : stop ≤ fourLevelLimit) {chunk : MappingChunk}
    (hchunk : chunk ∈ chunks stop direct kind gigabytePages start) :
    WellFormed direct kind gigabytePages chunk := by
  rw [chunks_eq hlt hlimit] at hchunk
  obtain ⟨r, hr, rfl⟩ := List.mem_map.mp hchunk
  obtain ⟨haligned, hinside, hsize⟩ := Region.mem_pieces (P := fun x => x % pageSize = 0)
    (fun x hx hlt => (leafPage_spec hx hstop hlt).2.2) hstart hr
  have hpage : r.size = (chunkAt stop direct kind gigabytePages r).pageSize.bytes := by
    rw [hsize]
    exact leafPage_size _ _ _ _
  have hphysical : r.start % r.size = 0 := by
    rw [hsize]
    exact (leafPage_spec haligned hstop hinside).1
  refine ⟨hpage, hphysical, ?_, rfl, fun hkind => ?_, fun hone => ?_⟩
  · show (if direct then kernelVirtBase + r.start else r.start) % r.size = 0
    -- the upper half begins at a multiple of every page size
    have hbase : kernelVirtBase % r.size = 0 := by
      rw [hpage]
      cases (chunkAt stop direct kind gigabytePages r).pageSize <;> decide
    split_ifs
    · rw [Nat.add_mod, hbase, hphysical, Nat.zero_add, Nat.zero_mod]
    · exact hphysical
  · simp [chunkAt, leafPage, hkind]
  · simp only [chunkAt, leafPage] at hone
    split_ifs at hone with hgigabyte
    exact hgigabyte.2.1

end Walk

/-! ## Planning and checking -/

theorem foldlM_push {plan : MappingPlan} {l : List MappingChunk}
    (hroom : plan.chunks.length ≤ maxChunks) :
    l.foldlM MappingPlan.push plan =
      if plan.chunks.length + l.length ≤ maxChunks then .ok ⟨plan.chunks ++ l⟩
      else .error .tooManyChunks := by
  induction l generalizing plan with
  | nil =>
    rw [List.length_nil, Nat.add_zero, if_pos hroom, List.append_nil]
    rfl
  | cons chunk l ih =>
    rw [List.foldlM_cons, MappingPlan.push]
    by_cases hfull : plan.chunks.length = maxChunks
    · rw [if_pos hfull, if_neg (by rw [List.length_cons]; omega)]
      rfl
    · rw [if_neg hfull]
      refine (ih (by rw [List.length_append, List.length_singleton]; omega)).trans ?_
      simp only [List.length_append, List.length_cons, List.length_nil, List.append_assoc,
        List.singleton_append, Nat.zero_add]
      congr 1
      exact propext (by omega)

/-- A plan holds the chunks of its range, if there is room for all of them. -/
theorem planRange_eq {start stop : ℕ} {direct : Bool} {kind : PhysicalMemoryKind}
    {gigabytePages : Bool} (hlt : start < stop) (hlimit : stop ≤ fourLevelLimit) :
    planRange start stop direct kind gigabytePages =
      if (chunks stop direct kind gigabytePages start).length ≤ maxChunks then
        .ok ⟨chunks stop direct kind gigabytePages start⟩
      else .error .tooManyChunks := by
  rw [planRange, walkRange_eq hlt hlimit, foldlM_push (Nat.zero_le _)]
  simp

/-- The chunks of a region of a memory map. -/
def regionChunks (direct gigabytePages : Bool) (region : PhysicalMemoryRegion) :
    List MappingChunk :=
  chunks region.stop direct region.kind gigabytePages region.start

section MemoryMap

variable {direct gigabytePages : Bool}

/-- A plan over several regions holds the chunks of one after the other. -/
theorem foldlM_regions {l : List PhysicalMemoryRegion} {plan plan' : MappingPlan}
    (hroom : plan.chunks.length ≤ maxChunks)
    (h : l.foldlM (fun plan region =>
      walkRange region.stop direct region.kind gigabytePages region.start MappingPlan.push plan)
      plan = .ok plan') :
    plan'.chunks = plan.chunks ++ l.flatMap (regionChunks direct gigabytePages) := by
  induction l generalizing plan with
  | nil =>
    cases h
    exact (List.append_nil _).symm
  | cons region l ih =>
    rw [List.foldlM_cons] at h
    by_cases haccept : region.start < region.stop ∧ region.stop ≤ fourLevelLimit
    · rw [walkRange_eq haccept.1 haccept.2, foldlM_push hroom] at h
      split_ifs at h with hfits
      · rw [ih (by rwa [List.length_append]) h, List.flatMap_cons, List.append_assoc]
        rfl
      · cases h
    · obtain ⟨error, hrefused⟩ := walkRange_refused direct region.kind gigabytePages haccept
      rw [hrefused] at h
      cases h

/-- Counting chunks goes like writing them down. -/
theorem walkRange_alike (direct gigabytePages : Bool) (region : PhysicalMemoryRegion) {count : ℕ} {plan : MappingPlan}
    (hcount : count = plan.chunks.length ∧ count ≤ maxChunks) :
    Alike (fun (count : ℕ) (plan : MappingPlan) => count = plan.chunks.length ∧ count ≤ maxChunks)
      (walkRange region.stop direct region.kind gigabytePages region.start countChunk count)
      (walkRange region.stop direct region.kind gigabytePages region.start MappingPlan.push
        plan) := by
  by_cases haccept : region.start < region.stop ∧ region.stop ≤ fourLevelLimit
  · rw [walkRange_eq haccept.1 haccept.2, walkRange_eq haccept.1 haccept.2]
    refine Alike.foldlM (fun chunk _ count plan ⟨hcount, hroom⟩ => ?_) hcount
    unfold countChunk MappingPlan.push
    -- the one stops before the chunk that has no room, the other after counting it
    by_cases hfull : plan.chunks.length = maxChunks
    · rw [if_pos (by omega), if_pos hfull]
      exact .error _
    · rw [if_neg (by omega), if_neg hfull]
      refine .ok ⟨?_, by omega⟩
      rw [List.length_append, List.length_singleton, hcount]
  · obtain ⟨error, hrefused⟩ := walkRange_refused direct region.kind gigabytePages haccept
    rw [hrefused, hrefused]
    exact .error _

end MemoryMap

/-! ## Installing -/

section Runtime

variable {σ : Type} {start stop : ℕ} {direct : Bool} {kind : PhysicalMemoryKind}
  {gigabytePages : Bool} (mapLeaf : Leaf → σ → Except String Unit × σ)

/-- The leaf that a chunk is installed with. -/
def leafOf (kind : PhysicalMemoryKind) (chunk : MappingChunk) : Leaf where
  virtualAddress := chunk.virtualStart
  physical := chunk.physicalStart
  size := chunk.size
  flags := flagsFor kind

/-- The loop of `map_range` chooses pages as the planner does. -/
theorem mapFrom_eq (physical : ℕ) (s : σ) :
    mapFrom stop direct kind gigabytePages mapLeaf physical s =
      issue mapLeaf (((Region.pieces (sizeAt stop kind gigabytePages) stop physical).map
        (chunkAt stop direct kind gigabytePages)).map (leafOf kind)) s := by
  induction physical using Region.pieces.induct (sizeAt stop kind gigabytePages) stop
    generalizing s with
  | case1 physical h ih =>
    have hsize : (if kind ≠ .mmio ∧ gigabytePages ∧ physical % gigabyte = 0 ∧
        stop - physical ≥ gigabyte then gigabyte
        else if kind ≠ .mmio ∧ physical % twoMib = 0 ∧ stop - physical ≥ twoMib then twoMib
        else pageSize) = sizeAt stop kind gigabytePages physical := by
      unfold sizeAt leafPage
      split_ifs <;> rfl
    rw [mapFrom, if_pos h.1, Region.pieces_of_lt h.1 h.2, List.map_cons, List.map_cons, issue]
    dsimp only
    rw [hsize]
    simp only [leafOf, chunkAt]
    rcases mapLeaf _ s with ⟨error | ⟨⟩, s⟩
    · rfl
    · exact ih s
  | case2 physical h =>
    have hge : ¬ physical < stop := fun hlt => h ⟨hlt, sizeAt_pos physical⟩
    rw [mapFrom, if_neg hge, Region.pieces_of_ge (Nat.not_lt.mp hge)]
    rfl

theorem mapRange_eq (hlt : start < stop) (hlimit : stop ≤ fourLevelLimit) (s : σ) :
    mapRange stop direct kind gigabytePages mapLeaf start s =
      issue mapLeaf ((chunks stop direct kind gigabytePages start).map (leafOf kind)) s := by
  rw [mapRange, if_neg (by omega), if_neg (by omega), mapFrom_eq, chunks_eq hlt hlimit]

end Runtime

/-! ## The planner, the checker and the runtime -/

/-- The chunks of a page-aligned range follow each other from its start to its end, are aligned,
and use no huge page for device memory; plans list them; checking a memory map and planning it end
the same way; and the runtime installs the leaves of the plan, one after the other. -/
theorem planner_agrees :
    (∀ (start stop : ℕ) (direct : Bool) (kind : PhysicalMemoryKind) (gigabytePages : Bool),
      start % pageSize = 0 → stop % pageSize = 0 → start < stop → stop ≤ fourLevelLimit →
        (∀ (σ : Type) (visit : σ → MappingChunk → Except MappingError σ) (s : σ),
          walkRange stop direct kind gigabytePages start visit s =
            (chunks stop direct kind gigabytePages start).foldlM visit s) ∧
        Region.Consecutive start stop
          ((chunks stop direct kind gigabytePages start).map MappingChunk.region) ∧
        (∀ address, (∃ chunk ∈ chunks stop direct kind gigabytePages start,
          chunk.region.Has address) ↔ start ≤ address ∧ address < stop) ∧
        (∀ chunk ∈ chunks stop direct kind gigabytePages start,
          WellFormed direct kind gigabytePages chunk) ∧
        planRange start stop direct kind gigabytePages =
          if (chunks stop direct kind gigabytePages start).length ≤ maxChunks then
            .ok ⟨chunks stop direct kind gigabytePages start⟩
          else .error .tooManyChunks) ∧
    (∀ (map : PhysicalMemoryMap) (direct gigabytePages : Bool) (plan : MappingPlan),
      planMemoryMap map direct gigabytePages = .ok plan →
        plan.chunks = (mapped map).flatMap (regionChunks direct gigabytePages)) ∧
    (∀ (map : PhysicalMemoryMap) (direct gigabytePages : Bool),
      (checkMemoryMap map direct gigabytePages = .ok () ↔
        ∃ plan, planMemoryMap map direct gigabytePages = .ok plan) ∧
      ∀ error, checkMemoryMap map direct gigabytePages = .error error ↔
        planMemoryMap map direct gigabytePages = .error error) ∧
    ∀ (start stop : ℕ) (direct : Bool) (kind : PhysicalMemoryKind) (gigabytePages : Bool)
      (plan : MappingPlan), planRange start stop direct kind gigabytePages = .ok plan →
        ∀ (σ : Type) (mapLeaf : Leaf → σ → Except String Unit × σ) (s : σ),
          mapRange stop direct kind gigabytePages mapLeaf start s =
            issue mapLeaf (plan.chunks.map (leafOf kind)) s := by
  refine ⟨fun start stop direct kind gigabytePages hstart hstop hlt hlimit => ?_,
    fun map direct gigabytePages plan h => ?_, fun map direct gigabytePages => ?_,
    fun start stop direct kind gigabytePages plan h σ mapLeaf s => ?_⟩
  · have hcover : Region.Consecutive start stop
        ((chunks stop direct kind gigabytePages start).map MappingChunk.region) := by
      rw [chunks_eq hlt hlimit, map_region_chunkAt]
      exact pieces_cover hstart hstop hlt
    refine ⟨fun σ visit s => walkRange_eq hlt hlimit visit s, hcover, fun address => ?_,
      fun chunk hchunk => chunks_wellFormed hstart hstop hlt hlimit hchunk,
      planRange_eq hlt hlimit⟩
    rw [← hcover.has_iff address]
    simp only [List.mem_map, exists_exists_and_eq_and]
  · have hchunks := foldlM_regions (Nat.zero_le _) h
    rwa [List.nil_append] at hchunks
  · have halike := Alike.foldlM (l := mapped map) (fun region _ count plan hcount =>
      walkRange_alike direct gigabytePages region hcount) (s := 0) (t := {}) ⟨rfl, Nat.zero_le _⟩
    rw [checkMemoryMap, planMemoryMap]
    rcases halike.cases with ⟨error, hcheck, hplan⟩ | ⟨count, plan, hcheck, hplan, -⟩
    · rw [hcheck, hplan]
      simp
    · rw [hcheck, hplan]
      simp
  · by_cases haccept : start < stop ∧ stop ≤ fourLevelLimit
    · rw [planRange_eq haccept.1 haccept.2] at h
      split_ifs at h
      cases h
      exact mapRange_eq mapLeaf haccept.1 haccept.2 s
    · obtain ⟨error, hrefused⟩ := walkRange_refused direct kind gigabytePages haccept
      rw [planRange, hrefused] at h
      cases h

/-- A range that begins just below a 2 MiB boundary and ends just above a 1 GiB one. -/
theorem planner_agrees_across :
    Region.Consecutive 0x1ff000 0x80001000
      ((chunks 0x80001000 true .usable true 0x1ff000).map MappingChunk.region) :=
  (planner_agrees.1 0x1ff000 0x80001000 true .usable true (by decide) (by decide) (by decide)
    (by decide)).2.1

end SaeOS.Mapping
