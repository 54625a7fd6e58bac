import SaeOS.Mm.VmaSemantics

/-!
# Runs of memory-map operations

Specifications of `munmap`, `mprotect` and `set_brk`, and the semantics of the memory map over
arbitrary sequences of operations: the representation invariant, the exact effect of each
operation on the view, and the atomicity of failed calls.
-/

namespace SaeOS.Vma

namespace MemoryMap

variable {m m' : MemoryMap} {address start stop length : ℕ} {protection : Protection}
  {v : Protection × RegionKind}

/-! ## `munmap` -/

/-- `munmap` and `mprotect` work on `start .. start + len`, with `len` the rounded length. -/
theorem rangeEnd_eq_some (h : (pageUp length).bind (checkedAdd start) = some stop) :
    ∃ len, pageUp length = some len ∧ stop = start + len := by
  obtain ⟨len, hlen, hadd⟩ := Option.bind_eq_some_iff.mp h
  refine ⟨len, hlen, ?_⟩
  unfold checkedAdd at hadd
  split_ifs at hadd
  exact (Option.some.inj hadd).symm

/-- A successful `munmap` removes the rounded range. -/
theorem munmap_ok {spans : List Span} (h : m.munmap start length = (.ok spans, m')) :
    ∃ len, pageUp length = some len ∧ 0 < len ∧ pageSize ∣ start ∧
      (spans, m') = m.remove start (start + len) := by
  unfold munmap at h
  split_ifs at h with hbad
  · cases congrArg Prod.fst h
  simp only [Bool.or_eq_true, Bool.not_eq_eq_eq_not, Bool.not_true, decide_eq_true_eq, not_or,
    Bool.not_eq_false] at hbad
  split at h
  next => cases congrArg Prod.fst h
  next stop hstop =>
    obtain ⟨len, hlen, rfl⟩ := rangeEnd_eq_some hstop
    refine ⟨len, hlen, pageUp_pos hlen hbad.2, aligned_iff.mp hbad.1, ?_⟩
    cases h
    rfl

theorem munmap_error {e : Errno} (h : m.munmap start length = (.error e, m')) : m' = m := by
  unfold munmap at h
  split_ifs at h
  · exact (congrArg Prod.snd h).symm
  split at h
  · exact (congrArg Prod.snd h).symm
  · cases congrArg Prod.fst h

/-! ## `mprotect` -/

/-- When the coverage loop succeeds every address of the range lies in a region. -/
theorem coveredFrom_sound {l : List Region} {cursor : ℕ} (h : coveredFrom stop l cursor = true)
    (h1 : cursor ≤ address) (h2 : address < stop) :
    ∃ r ∈ l, r.start ≤ address ∧ address < r.stop := by
  induction l generalizing cursor with
  | nil =>
    simp only [coveredFrom, decide_eq_true_eq] at h
    omega
  | cons r l ih =>
    simp only [coveredFrom] at h
    split_ifs at h with hskip hgap hlast
    · obtain ⟨x, hx, hx'⟩ := ih h h1
      exact ⟨x, List.mem_cons_of_mem _ hx, hx'⟩
    · exact ⟨r, List.mem_cons_self, by omega, by omega⟩
    · rcases lt_or_ge address r.stop with hlt | hge
      · exact ⟨r, List.mem_cons_self, by omega, hlt⟩
      · obtain ⟨x, hx, hx'⟩ := ih h hge
        exact ⟨x, List.mem_cons_of_mem _ hx, hx'⟩

/-- The span of a re-protected piece. -/
def pieceSpan (start stop : ℕ) (protection : Protection) (r : Region) : Span :=
  ⟨max r.start start, min r.stop stop, protection⟩

/-- The re-insertion loop of `mprotect` succeeds when the range is free in the map: it adds the
pieces, and nothing else. -/
theorem WellFormed.insertPieces (protection : Protection) (hstart : pageSize ∣ start) (hstop : pageSize ∣ stop)
    {l : List Region} (h : m.WellFormed) (hsorted : l.Pairwise fun r s => r.stop ≤ s.start)
    (hl : ∀ r ∈ l, pageSize ∣ r.start ∧ pageSize ∣ r.stop ∧
      max r.start start < min r.stop stop)
    (hover : ∀ r ∈ l, m.overlaps (max r.start start) (min r.stop stop) = false) :
    ∃ m', MemoryMap.insertPieces start stop protection l m =
        (.ok (l.map (pieceSpan start stop protection)), m') ∧ m'.WellFormed ∧
      m'.brk = m.brk ∧ m'.brkStart = m.brkStart ∧ m'.mmapTop = m.mmapTop ∧
      ∀ address v, m'.Maps address v ↔ m.Maps address v ∨
        ∃ r ∈ l, (start ≤ address ∧ address < stop) ∧ (r.start ≤ address ∧ address < r.stop) ∧
          (protection, (r.viewAt address).2) = v := by
  induction l generalizing m with
  | nil => exact ⟨m, rfl, h, rfl, rfl, rfl, by simp⟩
  | cons r l ih =>
    obtain ⟨hr1, hr2, hrne⟩ := hl r List.mem_cons_self
    rw [List.pairwise_cons] at hsorted
    have hpieceStart : pageSize ∣ max r.start start := by
      rcases max_choice r.start start with heq | heq <;> rw [heq] <;> assumption
    have hpieceStop : pageSize ∣ min r.stop stop := by
      rcases min_choice r.stop stop with heq | heq <;> rw [heq] <;> assumption
    obtain ⟨m₁, hins⟩ : ∃ m₁, m.insert (reprotected start stop protection r) = (.ok (), m₁) :=
      ⟨_, insert_eq_ok hrne hpieceStart hpieceStop (hover r List.mem_cons_self)⟩
    obtain ⟨-, -, -, -, hm₁⟩ := insert_ok hins
    have hwf₁ : m₁.WellFormed := h.insert hins
    -- later pieces of the list stay clear of the piece just inserted
    have hover₁ : ∀ x ∈ l, m₁.overlaps (max x.start start) (min x.stop stop) = false := by
      intro x hx
      refine overlaps_eq_false_iff.mpr fun y hy => ?_
      rw [hm₁] at hy
      rcases (List.mem_orderedInsert _).mp hy with rfl | hy
      · have hrx := hsorted.1 x hx
        left
        exact (min_le_left _ _).trans (hrx.trans (le_max_left _ _))
      · exact overlaps_eq_false_iff.mp (hover x (List.mem_cons_of_mem _ hx)) y hy
    obtain ⟨m₂, hrec, hwf₂, hb1, hb2, hb3, hmaps⟩ := ih hwf₁ hsorted.2
      (fun x hx => hl x (List.mem_cons_of_mem _ hx)) hover₁
    refine ⟨m₂, ?_, hwf₂, by rw [hb1, hm₁], by rw [hb2, hm₁], by rw [hb3, hm₁],
      fun address v => ?_⟩
    · simp only [MemoryMap.insertPieces, hins, hrec, List.map_cons]
      rfl
    · rw [hmaps, maps_insert hins]
      have hpiece : ((reprotected start stop protection r).start ≤ address ∧
          address < (reprotected start stop protection r).stop ∧
          (reprotected start stop protection r).viewAt address = v) ↔
          (start ≤ address ∧ address < stop) ∧ (r.start ≤ address ∧ address < r.stop) ∧
            (protection, (r.viewAt address).2) = v := by
        simp only [reprotected, Region.piece, sup_le_iff, lt_inf_iff, Region.viewAt,
          RegionKind.shift_shift]
        constructor
        · rintro ⟨⟨h1, h2⟩, ⟨h3, h4⟩, h5⟩
          have hsum : max r.start start - r.start + (address - max r.start start) =
              address - r.start := by omega
          rw [hsum] at h5
          exact ⟨⟨h2, h4⟩, ⟨h1, h3⟩, h5⟩
        · rintro ⟨⟨h2, h4⟩, ⟨h1, h3⟩, h5⟩
          have hsum : max r.start start - r.start + (address - max r.start start) =
              address - r.start := by omega
          rw [hsum]
          exact ⟨⟨h1, h2⟩, ⟨h3, h4⟩, h5⟩
      rw [hpiece, or_assoc]
      simp only [List.mem_cons, exists_eq_or_imp]

/-- The specification of a successful `mprotect` on a non-empty range. -/
structure Reprotected (m m' : MemoryMap) (start stop : ℕ) (protection : Protection)
    (spans : List Span) : Prop where
  wellFormed : m'.WellFormed
  covered : ∀ address, start ≤ address → address < stop → ∃ v, m.Maps address v
  spans_eq : spans =
    (m.regions.filter (inside start stop)).map (pieceSpan start stop protection)
  maps : ∀ address v, m'.Maps address v ↔
    if start ≤ address ∧ address < stop then ∃ p, m.Maps address (p, v.2) ∧ v.1 = protection
    else m.Maps address v
  frame : m'.brk = m.brk ∧ m'.brkStart = m.brkStart ∧ m'.mmapTop = m.mmapTop

/-- `mprotect` with its argument checks passed: it succeeds, and changes the protection of exactly
the range. -/
theorem WellFormed.mprotect_run (h : m.WellFormed) (protection : Protection)
    (hstart : pageSize ∣ start) (hstop : pageSize ∣ stop) (hlt : start < stop)
    (hcover : coveredFrom stop m.regions start = true) :
    ∃ spans m', MemoryMap.insertPieces start stop protection
        (m.regions.filter (MemoryMap.inside start stop)) (m.remove start stop).2 =
          (.ok spans, m') ∧ Reprotected m m' start stop protection spans := by
  have hinside : ∀ r, r ∈ m.regions.filter (MemoryMap.inside start stop) ↔
      r ∈ m.regions ∧ r.start < stop ∧ start < r.stop := by
    intro r
    simp [List.mem_filter, MemoryMap.inside]
  have hclear : ∀ x ∈ (m.remove start stop).2.regions, x.stop ≤ start ∨ stop ≤ x.start :=
    overlaps_eq_false_iff.mp h.overlaps_remove
  obtain ⟨m', hrun, hwf, hb1, hb2, hb3, hmaps⟩ :=
    WellFormed.insertPieces protection hstart hstop
      (l := m.regions.filter (MemoryMap.inside start stop)) (h.remove hstart hstop hlt.le)
      (h.sorted.filter _)
      (by
        intro r hr
        obtain ⟨hmem, h1, h2⟩ := (hinside r).mp hr
        have hne := h.nonempty r hmem
        refine ⟨h.start_aligned r hmem, h.stop_aligned r hmem, ?_⟩
        simp only [sup_lt_iff, lt_inf_iff]
        omega)
      (by
        intro r hr
        refine overlaps_eq_false_iff.mpr fun x hx => ?_
        rcases hclear x hx with hle | hle
        · exact Or.inl (hle.trans (le_max_right _ _))
        · exact Or.inr ((min_le_right _ _).trans hle))
  refine ⟨_, m', hrun, hwf, ?_, rfl, ?_, hb1, hb2, hb3⟩
  · intro address h1 h2
    obtain ⟨r, hr, hr1, hr2⟩ := coveredFrom_sound hcover h1 h2
    exact ⟨_, r, hr, hr1, hr2, rfl⟩
  · intro address v
    rw [hmaps, maps_remove]
    split_ifs with hin
    · constructor
      · rintro (⟨-, hnot⟩ | ⟨r, hr, -, hcontains, rfl⟩)
        · exact absurd hin hnot
        · exact ⟨r.protection, ⟨r, ((hinside r).mp hr).1, hcontains.1, hcontains.2, rfl⟩, rfl⟩
      · rintro ⟨p, ⟨r, hr, hr1, hr2, hview⟩, hp⟩
        refine Or.inr ⟨r, (hinside r).mpr ⟨hr, by omega, by omega⟩, hin, ⟨hr1, hr2⟩, ?_⟩
        rw [hview, ← hp]
    · constructor
      · rintro (⟨hmap, -⟩ | ⟨r, -, hin', -⟩)
        · exact hmap
        · exact absurd hin' hin
      · exact fun hmap => Or.inl ⟨hmap, hin⟩

/-- The end of the range `munmap` and `mprotect` work on is page aligned. -/
theorem rangeEnd_aligned (hstart : pageSize ∣ start) {len : ℕ} (hlen : pageUp length = some len) :
    pageSize ∣ start + len :=
  Nat.dvd_add hstart (pageUp_eq_some hlen).1

/-- A successful `mprotect` re-protects the rounded range, or does nothing on an empty one. -/
theorem WellFormed.mprotect_ok (h : m.WellFormed) {spans : List Span}
    (hok : m.mprotect start length protection = (.ok spans, m')) :
    ∃ len, pageUp length = some len ∧ pageSize ∣ start ∧
      ((len = 0 ∧ spans = [] ∧ m' = m) ∨
        (0 < len ∧ Reprotected m m' start (start + len) protection spans)) := by
  unfold mprotect at hok
  split_ifs at hok with hbad
  · cases congrArg Prod.fst hok
  have hstart : pageSize ∣ start := aligned_iff.mp (by simpa using hbad)
  split at hok
  next => cases congrArg Prod.fst hok
  next stop hstop =>
    obtain ⟨len, hlen, rfl⟩ := rangeEnd_eq_some hstop
    refine ⟨len, hlen, hstart, ?_⟩
    split_ifs at hok with heq hcover hdevice
    · cases hok
      exact Or.inl ⟨by omega, rfl, rfl⟩
    · cases congrArg Prod.fst hok
    · cases congrArg Prod.fst hok
    · have hpos : 0 < len := by omega
      obtain ⟨spans', m₁, hrun, hspec⟩ := h.mprotect_run protection hstart
        (rangeEnd_aligned hstart hlen) (by omega : start < start + len) (by simpa using hcover)
      rw [hrun] at hok
      cases hok
      exact Or.inr ⟨hpos, hspec⟩

theorem WellFormed.mprotect_error (h : m.WellFormed) {e : Errno}
    (herr : m.mprotect start length protection = (.error e, m')) : m' = m := by
  unfold mprotect at herr
  split_ifs at herr with hbad
  · exact (congrArg Prod.snd herr).symm
  have hstart : pageSize ∣ start := aligned_iff.mp (by simpa using hbad)
  split at herr
  next => exact (congrArg Prod.snd herr).symm
  next stop hstop =>
    obtain ⟨len, hlen, rfl⟩ := rangeEnd_eq_some hstop
    split_ifs at herr with heq hcover hdevice
    · cases congrArg Prod.fst herr
    · exact (congrArg Prod.snd herr).symm
    · exact (congrArg Prod.snd herr).symm
    · obtain ⟨spans', m₁, hrun, -⟩ := h.mprotect_run protection hstart
        (rangeEnd_aligned hstart hlen) (by omega : start < start + len) (by simpa using hcover)
      rw [hrun] at herr
      cases congrArg Prod.fst herr

/-! ## `set_brk` -/

/-- The specification of a successful `set_brk`: every heap region is replaced by one region
`brkStart..newEnd`. -/
structure BrkMoved (m m' : MemoryMap) (address : ℕ) (change : BrkChange) : Prop where
  wellFormed : m'.WellFormed
  ends : ∃ oldEnd newEnd, pageUp m.brk = some oldEnd ∧ pageUp address = some newEnd ∧
    newEnd ≤ m.mmapTop ∧ m.heapBlocked (max oldEnd newEnd) = false ∧
    change = brkChange oldEnd newEnd ∧
    ∀ a v, m'.Maps a v ↔ (m.Maps a v ∧ v.2 ≠ .heap) ∨
      (m.brkStart ≤ a ∧ a < newEnd ∧ (Protection.readWrite, RegionKind.heap) = v)
  above : m.brkStart ≤ address
  frame : m'.brk = address ∧ m'.brkStart = m.brkStart ∧ m'.mmapTop = m.mmapTop

/-- Dropping the heap regions keeps the map well formed. -/
theorem WellFormed.filter (h : m.WellFormed) (p : Region → Bool) :
    WellFormed { m with regions := m.regions.filter p } :=
  ⟨h.sorted.filter _, fun r hr => h.nonempty r (List.mem_of_mem_filter hr),
    fun r hr => h.start_aligned r (List.mem_of_mem_filter hr),
    fun r hr => h.stop_aligned r (List.mem_of_mem_filter hr), h.brkStart_aligned⟩

theorem maps_filter_heap :
    Maps { m with regions := m.regions.filter (·.kind != RegionKind.heap) } address v ↔
      m.Maps address v ∧ v.2 ≠ .heap := by
  simp only [Maps, List.mem_filter, bne_iff_ne, ne_eq]
  constructor
  · rintro ⟨r, ⟨hr, hkind⟩, h1, h2, rfl⟩
    exact ⟨⟨r, hr, h1, h2, rfl⟩, by simpa [Region.viewAt] using hkind⟩
  · rintro ⟨⟨r, hr, h1, h2, rfl⟩, hkind⟩
    exact ⟨r, ⟨hr, by simpa [Region.viewAt] using hkind⟩, h1, h2, rfl⟩

/-- Past its checks `set_brk` cannot fail: no other region is in the heap's range. -/
theorem WellFormed.insert_heap (h : m.WellFormed) {newEnd heapLimit : ℕ}
    (hend : pageSize ∣ newEnd) (hlt : m.brkStart < newEnd) (hle : newEnd ≤ heapLimit)
    (hfree : m.heapBlocked heapLimit = false) :
    ∃ m', MemoryMap.insert { m with regions := m.regions.filter (·.kind != RegionKind.heap) }
      ⟨m.brkStart, newEnd, .readWrite, .heap⟩ = (.ok (), m') := by
  refine ⟨_, insert_eq_ok hlt h.brkStart_aligned hend (overlaps_eq_false_iff.mpr ?_)⟩
  intro r hr
  simp only [List.mem_filter, bne_iff_ne, ne_eq] at hr
  have hr' := List.any_eq_false.mp hfree r hr.1
  simp only [Bool.and_eq_true, bne_iff_ne, ne_eq, hr.2, not_false_eq_true, decide_eq_true_eq,
    true_and, not_and, not_lt] at hr'
  simp only
  omega

theorem WellFormed.setBrk_ok (h : m.WellFormed) {change : BrkChange}
    (hok : m.setBrk address = (.ok change, m')) : BrkMoved m m' address change := by
  unfold setBrk at hok
  by_cases hlow : address < m.brkStart
  · rw [if_pos hlow] at hok
    cases congrArg Prod.fst hok
  rw [if_neg hlow] at hok
  split at hok
  case h_2 => cases congrArg Prod.fst hok
  next oldEnd newEnd hold hnew =>
    by_cases hblocked : (decide (newEnd > m.mmapTop) || m.heapBlocked (max oldEnd newEnd)) = true
    · rw [if_pos hblocked] at hok
      cases congrArg Prod.fst hok
    rw [if_neg hblocked] at hok
    simp only [gt_iff_lt, Bool.or_eq_true, decide_eq_true_eq, not_or, not_lt,
      Bool.not_eq_true] at hblocked
    by_cases hgrow : newEnd > m.brkStart
    · obtain ⟨m₁, hins⟩ := h.insert_heap (pageUp_eq_some hnew).1 hgrow (le_max_right oldEnd newEnd)
        hblocked.2
      simp only [hgrow, ↓reduceIte, hins] at hok
      cases hok
      have hwf := (h.filter (·.kind != RegionKind.heap)).insert hins
      obtain ⟨-, -, -, -, hm₁⟩ := insert_ok hins
      have hframe : m₁.brkStart = m.brkStart ∧ m₁.mmapTop = m.mmapTop := by
        rw [hm₁]
        exact ⟨rfl, rfl⟩
      refine ⟨⟨hwf.sorted, hwf.nonempty, hwf.start_aligned, hwf.stop_aligned,
        hwf.brkStart_aligned⟩, ⟨oldEnd, newEnd, hold, hnew, hblocked.1, hblocked.2, rfl, ?_⟩,
        not_lt.mp hlow, rfl, hframe⟩
      intro a v
      have hmaps : m₁.Maps a v ↔ _ := maps_insert hins
      rw [maps_filter_heap] at hmaps
      simpa [Maps, Region.viewAt, RegionKind.shift] using hmaps
    · simp only [hgrow, ↓reduceIte] at hok
      cases hok
      have hwf := h.filter (·.kind != RegionKind.heap)
      refine ⟨⟨hwf.sorted, hwf.nonempty, hwf.start_aligned, hwf.stop_aligned,
        hwf.brkStart_aligned⟩, ⟨oldEnd, newEnd, hold, hnew, hblocked.1, hblocked.2, rfl, ?_⟩,
        not_lt.mp hlow, rfl, rfl, rfl⟩
      intro a v
      have hmaps : Maps { m with regions := _ } a v ↔ _ := maps_filter_heap
      constructor
      · exact fun hm => Or.inl (hmaps.mp hm)
      · rintro (hm | ⟨h1, h2, -⟩)
        · exact hmaps.mpr hm
        · omega

theorem WellFormed.setBrk_error (h : m.WellFormed) {e : Errno}
    (herr : m.setBrk address = (.error e, m')) : m' = m := by
  unfold setBrk at herr
  by_cases hlow : address < m.brkStart
  · rw [if_pos hlow] at herr
    exact (congrArg Prod.snd herr).symm
  rw [if_neg hlow] at herr
  split at herr
  case h_2 => exact (congrArg Prod.snd herr).symm
  next oldEnd newEnd hold hnew =>
    by_cases hblocked : (decide (newEnd > m.mmapTop) || m.heapBlocked (max oldEnd newEnd)) = true
    · rw [if_pos hblocked] at herr
      exact (congrArg Prod.snd herr).symm
    rw [if_neg hblocked] at herr
    simp only [gt_iff_lt, Bool.or_eq_true, decide_eq_true_eq, not_or, not_lt,
      Bool.not_eq_true] at hblocked
    by_cases hgrow : newEnd > m.brkStart
    · obtain ⟨m₁, hins⟩ := h.insert_heap (pageUp_eq_some hnew).1 hgrow (le_max_right oldEnd newEnd)
        hblocked.2
      simp only [hgrow, ↓reduceIte, hins] at herr
      cases congrArg Prod.fst herr
    · simp only [hgrow, ↓reduceIte] at herr
      cases congrArg Prod.fst herr

/-! ## Effects on the view -/

/-- A successful `place` on a well-formed map leaves a well-formed map. -/
theorem Placed.wellFormed {hint : ℕ} {fixed : Bool} {kind : RegionKind} {change : MmapChange}
    (hp : Placed m m' hint length protection fixed kind change) (h : m.WellFormed) :
    m'.WellFormed := by
  obtain ⟨-, hstart, hstop, -, -⟩ := insert_ok hp.insert_eq
  obtain ⟨len, -, hpos, hnew⟩ := hp.new_eq
  have hle : change.new.start ≤ change.new.stop := by
    rw [hnew]
    exact Nat.le_add_right _ _
  exact (h.remove hstart hstop hle).insert hp.insert_eq

/-- A successful `munmap` empties exactly its rounded range and returns the spans that were mapped
there. -/
structure MunmapExact (m m' : MemoryMap) (start length : ℕ) (spans : List Span) : Prop where
  view : ∃ len, pageUp length = some len ∧ 0 < len ∧
    (∀ address, m'.view address =
      if start ≤ address ∧ address < start + len then none else m.view address) ∧
    ∀ address, InSpans spans address ↔
      (start ≤ address ∧ address < start + len) ∧ m.view address ≠ none
  ordered : SpansOrdered spans

/-- A successful `mmap` maps exactly the rounded range `change.new` to the requested protection and
backing, after unmapping what was mapped there. -/
structure MmapExact (m m' : MemoryMap) (hint length : ℕ) (protection : Protection) (fixed : Bool)
    (kind : RegionKind) (change : MmapChange) : Prop where
  range : ∃ len, pageUp length = some len ∧ 0 < len ∧
    change.new = ⟨change.address, change.address + len, protection⟩
  at_hint : fixed = true → change.address = hint
  view : ∀ address, m'.view address =
    if change.new.start ≤ address ∧ address < change.new.stop then
      some (protection, kind.shift (address - change.new.start))
    else m.view address
  inReplaced : ∀ address, InSpans change.replaced address ↔
    (change.new.start ≤ address ∧ address < change.new.stop) ∧ m.view address ≠ none
  replaced : SpansOrdered change.replaced
  fresh : fixed = false → change.replaced = []

/-- A successful `mprotect` changes exactly the protection of its rounded range, all of it mapped,
and returns spans that make up the range. -/
structure MprotectExact (m m' : MemoryMap) (start length : ℕ) (protection : Protection)
    (spans : List Span) : Prop where
  view : ∃ len, pageUp length = some len ∧
    (∀ address, m'.view address =
      if start ≤ address ∧ address < start + len then
        (m.view address).map fun v => (protection, v.2)
      else m.view address) ∧
    (∀ address, start ≤ address → address < start + len → m.view address ≠ none) ∧
    ∀ address, InSpans spans address ↔ start ≤ address ∧ address < start + len
  ordered : SpansOrdered spans
  protection_eq : ∀ span ∈ spans, span.protection = protection

/-- An address has a value in the view exactly when some region maps it. -/
theorem WellFormed.view_ne_none_iff (h : m.WellFormed) :
    m.view address ≠ none ↔ ∃ v, m.Maps address v := by
  rw [Option.ne_none_iff_exists']
  simp only [h.view_eq_some_iff]

theorem WellFormed.munmapExact (h : m.WellFormed) {spans : List Span}
    (hok : m.munmap start length = (.ok spans, m')) : MunmapExact m m' start length spans := by
  obtain ⟨len, hlen, hpos, hstart, heq⟩ := munmap_ok hok
  have hspans : spans = (m.remove start (start + len)).1 := congrArg Prod.fst heq
  have hm' : m' = (m.remove start (start + len)).2 := congrArg Prod.snd heq
  subst hspans hm'
  have hstop := rangeEnd_aligned hstart hlen
  have hwf := h.remove hstart hstop (Nat.le_add_right start len)
  refine ⟨⟨len, hlen, hpos, fun address => ?_, fun address => ?_⟩,
    h.spansOrdered_remove hstart hstop (by omega)⟩
  · split_ifs with hin
    · cases hview : (m.remove start (start + len)).2.view address with
      | none => rfl
      | some v => exact absurd hin (maps_remove.mp (hwf.view_eq_some_iff.mp hview)).2
    · refine h.view_eq_of_maps hwf fun v => ?_
      rw [maps_remove]
      exact and_iff_left hin
  · rw [inSpans_remove, h.view_ne_none_iff]

theorem WellFormed.mmapExact (h : m.WellFormed) {hint : ℕ} {fixed : Bool} {kind : RegionKind}
    {change : MmapChange}
    (hok : m.place hint length protection fixed kind = (.ok change, m')) :
    MmapExact m m' hint length protection fixed kind change := by
  have hp := place_ok hok
  obtain ⟨hlt, hstart, hstop, -, -⟩ := insert_ok hp.insert_eq
  have hwf := hp.wellFormed h
  refine ⟨hp.new_eq, hp.fixed_eq, fun address => ?_, fun address => ?_, ?_, fun hf => ?_⟩
  · split_ifs with hin
    · exact hwf.view_eq_some_iff.mpr
        ((maps_insert hp.insert_eq).mpr (Or.inr ⟨hin.1, hin.2, rfl⟩))
    · refine h.view_eq_of_maps hwf fun v => ?_
      rw [maps_insert hp.insert_eq, maps_remove]
      constructor
      · rintro (⟨hm, -⟩ | ⟨h1, h2, -⟩)
        · exact hm
        · exact absurd ⟨h1, h2⟩ hin
      · exact fun hm => Or.inl ⟨hm, hin⟩
  · rw [hp.replaced_eq, inSpans_remove, h.view_ne_none_iff]
  · rw [hp.replaced_eq]
    exact h.spansOrdered_remove hstart hstop hlt
  · rw [hp.replaced_eq, remove_of_overlaps_eq_false (hp.not_fixed hf)]

/-- The spans of a re-protected range are ordered and make up the range. -/
theorem Reprotected.spansOrdered {spans : List Span}
    (hr : Reprotected m m' start stop protection spans) (h : m.WellFormed)
    (hstart : pageSize ∣ start) (hstop : pageSize ∣ stop) (hlt : start < stop) :
    SpansOrdered spans := by
  have hspan : ∀ span ∈ spans, ∃ r ∈ m.regions, r.start < stop ∧ start < r.stop ∧
      span = pieceSpan start stop protection r := by
    intro span hmem
    rw [hr.spans_eq] at hmem
    obtain ⟨r, hr', rfl⟩ := List.mem_map.mp hmem
    simp only [List.mem_filter, inside, Bool.and_eq_true, decide_eq_true_eq] at hr'
    exact ⟨r, hr'.1, hr'.2.1, hr'.2.2, rfl⟩
  refine ⟨?_, ?_, ?_⟩
  · rw [hr.spans_eq]
    refine List.pairwise_map.mpr ((h.sorted.filter _).imp fun {r s} hrs => ?_)
    exact (min_le_left _ _).trans (hrs.trans (le_max_left _ _))
  · intro span hmem
    obtain ⟨r, hr', h1, h2, rfl⟩ := hspan span hmem
    have := h.nonempty r hr'
    simp only [pieceSpan, sup_lt_iff, lt_inf_iff]
    omega
  · intro span hmem
    obtain ⟨r, hr', -, -, rfl⟩ := hspan span hmem
    constructor
    · rcases max_choice r.start start with heq | heq <;> simp only [pieceSpan, heq]
      · exact h.start_aligned r hr'
      · exact hstart
    · rcases min_choice r.stop stop with heq | heq <;> simp only [pieceSpan, heq]
      · exact h.stop_aligned r hr'
      · exact hstop

theorem Reprotected.inSpans_iff {spans : List Span}
    (hr : Reprotected m m' start stop protection spans) :
    InSpans spans address ↔ start ≤ address ∧ address < stop := by
  simp only [InSpans, hr.spans_eq, List.mem_map, List.mem_filter, inside, Bool.and_eq_true,
    decide_eq_true_eq]
  constructor
  · rintro ⟨span, ⟨r, -, rfl⟩, h1, h2⟩
    simp only [pieceSpan, sup_le_iff, lt_inf_iff] at h1 h2
    exact ⟨h1.2, h2.2⟩
  · rintro ⟨h1, h2⟩
    obtain ⟨v, r, hmem, hr1, hr2, -⟩ := hr.covered address h1 h2
    exact ⟨_, ⟨r, ⟨hmem, by omega, by omega⟩, rfl⟩, max_le hr1 h1, lt_min hr2 h2⟩

theorem WellFormed.mprotectExact (h : m.WellFormed) {spans : List Span}
    (hok : m.mprotect start length protection = (.ok spans, m')) :
    MprotectExact m m' start length protection spans := by
  obtain ⟨len, hlen, hstart, ⟨rfl, rfl, rfl⟩ | ⟨hpos, hr⟩⟩ := h.mprotect_ok hok
  · have hempty : ∀ address, ¬(start ≤ address ∧ address < start + 0) := by omega
    refine ⟨⟨0, hlen, fun address => ?_, fun address h1 h2 => absurd ⟨h1, h2⟩ (hempty address),
      fun address => ?_⟩, ⟨List.Pairwise.nil, by simp, by simp⟩, by simp⟩
    · rw [if_neg (hempty address)]
    · simp only [InSpans, List.not_mem_nil, false_and, exists_false, hempty]
  · have hstop := rangeEnd_aligned hstart hlen
    refine ⟨⟨len, hlen, fun address => ?_, fun address h1 h2 => ?_, fun address => hr.inSpans_iff⟩,
      hr.spansOrdered h hstart hstop (by omega), ?_⟩
    · split_ifs with hin
      · obtain ⟨v, hv⟩ := hr.covered address hin.1 hin.2
        rw [h.view_eq_some_iff.mpr hv, Option.map_some, hr.wellFormed.view_eq_some_iff, hr.maps,
          if_pos hin]
        exact ⟨v.1, hv, rfl⟩
      · refine h.view_eq_of_maps hr.wellFormed fun v => ?_
        rw [hr.maps, if_neg hin]
    · exact h.view_ne_none_iff.mpr (hr.covered address h1 h2)
    · intro span hmem
      rw [hr.spans_eq] at hmem
      obtain ⟨r, -, rfl⟩ := List.mem_map.mp hmem
      rfl

/-! ## Runs -/

/-- The operations on a memory map. -/
inductive Op
  | insert (region : Region)
  | mmap (hint length : ℕ) (protection : Protection) (fixed : Bool)
  | mmapDevice (hint length : ℕ) (protection : Protection) (physical : ℕ) (fixed : Bool)
  | munmap (start length : ℕ)
  | mprotect (start length : ℕ) (protection : Protection)
  | setBrk (address : ℕ)
  deriving DecidableEq, Repr

/-- What a successful operation returns. -/
inductive Reply
  | done
  | mapped (change : MmapChange)
  | spans (spans : List Span)
  | moved (change : BrkChange)
  deriving DecidableEq, Repr

/-- Relabel the value of an outcome. -/
def relabel {α β : Type} (f : α → β) (outcome : Outcome α) : Outcome β :=
  (outcome.1.map f, outcome.2)

/-- Run one operation. -/
def apply (m : MemoryMap) : Op → Outcome Reply
  | .insert region => relabel (fun _ => .done) (m.insert region)
  | .mmap hint length protection fixed => relabel .mapped (m.mmap hint length protection fixed)
  | .mmapDevice hint length protection physical fixed =>
    relabel .mapped (m.mmapDevice hint length protection physical fixed)
  | .munmap start length => relabel .spans (m.munmap start length)
  | .mprotect start length protection => relabel .spans (m.mprotect start length protection)
  | .setBrk address => relabel .moved (m.setBrk address)

/-- The map of a freshly exec'd program: any regions `MemoryMap::new` accepts, with the heap
starting on a page boundary. -/
def Initial (m : MemoryMap) : Prop :=
  ∃ regions brkStart mmapTop, pageSize ∣ brkStart ∧ new regions brkStart mmapTop = .ok m

/-- One operation takes `m` to `m'`, whether it succeeds or not. -/
def Step (m : MemoryMap) (op : Op) (m' : MemoryMap) : Prop :=
  (m.apply op).2 = m'

section Relabel

variable {α β : Type} {f : α → β} {outcome : Outcome α}

theorem relabel_eq_ok {b : β} (h : relabel f outcome = (.ok b, m')) :
    ∃ a, outcome = (.ok a, m') ∧ f a = b := by
  obtain ⟨result, m₁⟩ := outcome
  cases result with
  | error e => cases congrArg Prod.fst h
  | ok a =>
    cases h
    exact ⟨a, rfl, rfl⟩

theorem relabel_eq_error {e : Errno} (h : relabel f outcome = (.error e, m')) :
    outcome = (.error e, m') := by
  obtain ⟨result, m₁⟩ := outcome
  cases result with
  | error e' =>
    cases h
    rfl
  | ok a => cases congrArg Prod.fst h

end Relabel

/-- `mmapDevice` succeeds only through `place`, and its other failures change nothing. -/
theorem mmapDevice_eq {hint physical : ℕ} {fixed : Bool} {result : Except Errno MmapChange}
    (h : m.mmapDevice hint length protection physical fixed = (result, m')) :
    m.place hint length protection fixed (.device physical) = (result, m') ∨
      (result = .error .EINVAL ∧ m' = m) := by
  unfold mmapDevice at h
  split_ifs at h
  · cases h
    exact Or.inr ⟨rfl, rfl⟩
  · exact Or.inl h

/-- An operation that fails leaves the map unchanged. -/
theorem WellFormed.apply_error (h : m.WellFormed) {op : Op} {e : Errno}
    (herr : m.apply op = (.error e, m')) : m' = m := by
  cases op with
  | insert region =>
    have hins := relabel_eq_error herr
    have hsame := insert_error (congrArg Prod.fst hins)
    rwa [hins] at hsame
  | mmap hint length protection fixed => exact h.place_error (relabel_eq_error herr)
  | mmapDevice hint length protection physical fixed =>
    rcases mmapDevice_eq (relabel_eq_error herr) with hplace | ⟨-, hsame⟩
    · exact h.place_error hplace
    · exact hsame
  | munmap start length => exact munmap_error (relabel_eq_error herr)
  | mprotect start length protection => exact h.mprotect_error (relabel_eq_error herr)
  | setBrk address => exact h.setBrk_error (relabel_eq_error herr)

/-- An operation that succeeds leaves a well-formed map. -/
theorem WellFormed.apply_ok (h : m.WellFormed) {op : Op} {reply : Reply}
    (hok : m.apply op = (.ok reply, m')) : m'.WellFormed := by
  cases op with
  | insert region =>
    obtain ⟨⟨⟩, hins, -⟩ := relabel_eq_ok hok
    exact h.insert hins
  | mmap hint length protection fixed =>
    obtain ⟨change, hmap, -⟩ := relabel_eq_ok hok
    exact (place_ok hmap).wellFormed h
  | mmapDevice hint length protection physical fixed =>
    obtain ⟨change, hmap, -⟩ := relabel_eq_ok hok
    rcases mmapDevice_eq hmap with hplace | ⟨herr, -⟩
    · exact (place_ok hplace).wellFormed h
    · cases herr
  | munmap start length =>
    obtain ⟨spans, hunmap, -⟩ := relabel_eq_ok hok
    obtain ⟨len, hlen, -, hstart, heq⟩ := munmap_ok hunmap
    have hm' : m' = (m.remove start (start + len)).2 := congrArg Prod.snd heq
    rw [hm']
    exact h.remove hstart (rangeEnd_aligned hstart hlen) (Nat.le_add_right _ _)
  | mprotect start length protection =>
    obtain ⟨spans, hprotect, -⟩ := relabel_eq_ok hok
    obtain ⟨len, -, -, ⟨-, -, rfl⟩ | ⟨-, hr⟩⟩ := h.mprotect_ok hprotect
    · exact h
    · exact hr.wellFormed
  | setBrk address =>
    obtain ⟨change, hbrk, -⟩ := relabel_eq_ok hok
    exact (h.setBrk_ok hbrk).wellFormed

/-- Every step keeps the map well formed. -/
theorem WellFormed.step (h : m.WellFormed) {op : Op} (hstep : m.Step op m') : m'.WellFormed := by
  rcases hrun : m.apply op with ⟨result, m₁⟩
  unfold Step at hstep
  rw [hrun] at hstep
  subst hstep
  cases result with
  | error e =>
    have hsame := h.apply_error hrun
    simpa [hsame] using h
  | ok reply => exact h.apply_ok hrun

/-- `MemoryMap::new` inserts its regions one by one, so it keeps a well-formed map well formed. -/
theorem WellFormed.foldlM_insert {regions : List Region} (h : m.WellFormed)
    (hok : regions.foldlM (fun m r => match m.insert r with
      | (.ok (), m') => Except.ok m'
      | (.error e, _) => .error e) m = .ok m') : m'.WellFormed := by
  induction regions generalizing m with
  | nil =>
    cases hok
    exact h
  | cons r regions ih =>
    rcases hins : m.insert r with ⟨result, m₁⟩
    rw [List.foldlM_cons, hins] at hok
    cases result with
    | error e => cases hok
    | ok u => exact ih (h.insert hins) hok

/-- A freshly exec'd program's map is well formed. -/
theorem Initial.wellFormed (h : Initial m) : m.WellFormed := by
  obtain ⟨regions, brkStart, mmapTop, hbrk, hnew⟩ := h
  exact WellFormed.foldlM_insert ⟨List.Pairwise.nil, by simp, by simp, by simp, hbrk⟩ hnew

/-- Every reachable map is well formed. -/
theorem wellFormed_of_reachable (h : Run.Reachable Initial Step m) : m.WellFormed :=
  h.invariant (fun _ hm => hm.wellFormed) fun _ _ _ hm hstep => hm.step hstep

/-- What an operation may do to a device page: unmap it, keep its physical address, or map something
new over it. -/
def DeviceKept (m m' : MemoryMap) (reply : Reply) : Prop :=
  ∀ address protection physical, m.view address = some (protection, .device physical) →
    m'.view address = none ∨
      (∃ protection', m'.view address = some (protection', .device physical)) ∨
      ∃ change, reply = .mapped change ∧
        change.new.start ≤ address ∧ address < change.new.stop

theorem MmapExact.deviceKept {hint : ℕ} {fixed : Bool} {kind : RegionKind} {change : MmapChange}
    (hp : MmapExact m m' hint length protection fixed kind change) :
    DeviceKept m m' (.mapped change) := by
  intro address p physical hview
  by_cases hin : change.new.start ≤ address ∧ address < change.new.stop
  · exact Or.inr (Or.inr ⟨change, rfl, hin⟩)
  · have := hp.view address
    rw [if_neg hin, hview] at this
    exact Or.inr (Or.inl ⟨p, this⟩)

/-- No operation moves a device page to another physical address. -/
theorem WellFormed.deviceKept (h : m.WellFormed) {op : Op} {reply : Reply}
    (hok : m.apply op = (.ok reply, m')) : DeviceKept m m' reply := by
  cases op with
  | insert region =>
    obtain ⟨⟨⟩, hins, -⟩ := relabel_eq_ok hok
    intro address p physical hview
    refine Or.inr (Or.inl ⟨p, (h.insert hins).view_eq_some_iff.mpr ?_⟩)
    exact (maps_insert hins).mpr (Or.inl (h.view_eq_some_iff.mp hview))
  | mmap hint length protection fixed =>
    obtain ⟨change, hmap, rfl⟩ := relabel_eq_ok hok
    exact (h.mmapExact hmap).deviceKept
  | mmapDevice hint length protection physical fixed =>
    obtain ⟨change, hmap, rfl⟩ := relabel_eq_ok hok
    rcases mmapDevice_eq hmap with hplace | ⟨herr, -⟩
    · exact (h.mmapExact hplace).deviceKept
    · cases herr
  | munmap start length =>
    obtain ⟨spans, hunmap, -⟩ := relabel_eq_ok hok
    obtain ⟨len, -, -, hview', -⟩ := (h.munmapExact hunmap).view
    intro address p physical hview
    rw [hview' address]
    split_ifs
    · exact Or.inl rfl
    · exact Or.inr (Or.inl ⟨p, hview⟩)
  | mprotect start length protection =>
    obtain ⟨spans, hprotect, -⟩ := relabel_eq_ok hok
    obtain ⟨len, -, hview', -⟩ := (h.mprotectExact hprotect).view
    intro address p physical hview
    rw [hview' address, hview]
    split_ifs
    · exact Or.inr (Or.inl ⟨protection, rfl⟩)
    · exact Or.inr (Or.inl ⟨p, rfl⟩)
  | setBrk newBrk =>
    obtain ⟨change, hbrk, -⟩ := relabel_eq_ok hok
    have hmoved := h.setBrk_ok hbrk
    obtain ⟨oldEnd, newEnd, -, -, -, -, -, hmaps⟩ := hmoved.ends
    intro address p physical hview
    refine Or.inr (Or.inl ⟨p, hmoved.wellFormed.view_eq_some_iff.mpr ?_⟩)
    exact (hmaps _ _).mpr (Or.inl ⟨h.view_eq_some_iff.mp hview, by simp⟩)

/-- The memory map over whole runs. In every map reachable from a fresh one, the regions are sorted,
disjoint, non-empty and page aligned; a failing call leaves the map unchanged; `munmap`, `mmap` and
`mprotect` change the view on exactly their rounded range and return exactly the spans concerned;
and no call moves a device page to another physical address. -/
theorem reachable_exact (h : Run.Reachable Initial Step m) :
    m.WellFormed ∧
    (∀ op e m', m.apply op = (.error e, m') → m' = m) ∧
    (∀ start length spans m', m.munmap start length = (.ok spans, m') →
      MunmapExact m m' start length spans) ∧
    (∀ hint length protection fixed change m',
      m.mmap hint length protection fixed = (.ok change, m') →
      MmapExact m m' hint length protection fixed .anonymous change) ∧
    (∀ hint length protection physical fixed change m',
      m.mmapDevice hint length protection physical fixed = (.ok change, m') →
      MmapExact m m' hint length protection fixed (.device physical) change) ∧
    (∀ start length protection spans m',
      m.mprotect start length protection = (.ok spans, m') →
      MprotectExact m m' start length protection spans) ∧
    ∀ op reply m', m.apply op = (.ok reply, m') → DeviceKept m m' reply := by
  have hwf := wellFormed_of_reachable h
  refine ⟨hwf, fun op e m' => hwf.apply_error, fun start length spans m' => hwf.munmapExact,
    fun hint length protection fixed change m' => hwf.mmapExact, ?_,
    fun start length protection spans m' => hwf.mprotectExact, fun op reply m' => hwf.deviceKept⟩
  intro hint length protection physical fixed change m' hok
  rcases mmapDevice_eq hok with hplace | ⟨herr, -⟩
  · exact hwf.mmapExact hplace
  · cases herr

/-- A map with a device mapping split by an unmapped page in its middle. -/
def splitDevice : MemoryMap :=
  { regions :=
      [⟨0x20000, 0x21000, .readWrite, .device 0x8000⟩,
        ⟨0x22000, 0x23000, .readWrite, .device 0xA000⟩]
    brkStart := 0x10000
    brk := 0x10000
    mmapTop := 0x100000 }

theorem reachable_exact_splitDevice : splitDevice.WellFormed ∧
    splitDevice.view 0x22000 = some (.readWrite, .device 0xA000) := by
  have hinit : Initial ⟨[], 0x10000, 0x10000, 0x100000⟩ :=
    ⟨[], 0x10000, 0x100000, by decide, rfl⟩
  have hmapped : Run.Reachable Initial Step
      ⟨[⟨0x20000, 0x23000, .readWrite, .device 0x8000⟩], 0x10000, 0x10000, 0x100000⟩ :=
    .next (.start hinit)
      (show (apply _ (.mmapDevice 0x20000 0x3000 .readWrite 0x8000 true)).2 = _ by decide)
  have hsplit : Run.Reachable Initial Step splitDevice :=
    .next hmapped (show (apply _ (.munmap 0x21000 0x1000)).2 = _ by decide)
  exact ⟨(reachable_exact hsplit).1, by decide⟩

end MemoryMap

end SaeOS.Vma
