import Mathlib.Data.List.Flatten
import Mathlib.Data.List.Pairwise
import Mathlib.Order.MinMax
import SaeOS.Lib.Run
import SaeOS.Mm.Vma

/-!
# The memory map as a function on addresses

`MemoryMap.view` reads a map as a partial function from addresses to protection and backing; the
backing of a device page is its own physical address, so a split that moved it would show. A
well-formed map keeps its regions sorted, disjoint, non-empty and page aligned
(`MemoryMap.WellFormed`), and on such maps every operation is characterised by its effect on the
view.
-/

namespace SaeOS.Vma

namespace RegionKind

/-- Moving a region's start twice is moving it once by the sum. -/
@[simp]
theorem shift_shift (kind : RegionKind) (a b : ℕ) : (kind.shift a).shift b = kind.shift (a + b) := by
  cases kind <;> simp [shift, Nat.mod_add_mod, Nat.add_assoc]

/-- Shifting keeps device memory device memory. -/
@[simp]
theorem shift_eq_heap_iff (kind : RegionKind) (a : ℕ) : kind.shift a = .heap ↔ kind = .heap := by
  cases kind <;> simp [shift]

end RegionKind

/-- What an address is mapped to: its protection, and its backing moved to the address itself. -/
def Region.viewAt (r : Region) (address : ℕ) : Protection × RegionKind :=
  (r.protection, r.kind.shift (address - r.start))

/-- A piece maps its addresses as the whole region did. -/
theorem Region.viewAt_piece {r : Region} {start stop address : ℕ} (hstart : r.start ≤ start)
    (haddress : start ≤ address) : (r.piece start stop).viewAt address = r.viewAt address := by
  have hsum : start - r.start + (address - start) = address - r.start := by omega
  simp [viewAt, piece, hsum]

namespace MemoryMap

/-- The map as a partial function from addresses to protection and backing. -/
def view (m : MemoryMap) (address : ℕ) : Option (Protection × RegionKind) :=
  (m.regionAt address).map (·.viewAt address)

/-- Relational form of `view`: some region maps `address` to `v`. -/
def Maps (m : MemoryMap) (address : ℕ) (v : Protection × RegionKind) : Prop :=
  ∃ r ∈ m.regions, r.start ≤ address ∧ address < r.stop ∧ r.viewAt address = v

/-- The representation invariant: regions are sorted and pairwise disjoint, non-empty and page
aligned, and the heap starts on a page boundary. -/
structure WellFormed (m : MemoryMap) : Prop where
  sorted : m.regions.Pairwise fun r s => r.stop ≤ s.start
  nonempty : ∀ r ∈ m.regions, r.start < r.stop
  start_aligned : ∀ r ∈ m.regions, pageSize ∣ r.start
  stop_aligned : ∀ r ∈ m.regions, pageSize ∣ r.stop
  brkStart_aligned : pageSize ∣ m.brkStart

variable {m m' : MemoryMap} {address start stop : ℕ} {v : Protection × RegionKind}

/-- Two regions of a well-formed map that share an address are the same region. -/
theorem WellFormed.eq_of_mem (h : m.WellFormed) {r s : Region} (hr : r ∈ m.regions)
    (hs : s ∈ m.regions) (hr1 : r.start ≤ address) (hr2 : address < r.stop)
    (hs1 : s.start ≤ address) (hs2 : address < s.stop) : r = s := by
  have hdisjoint : ∀ x ∈ m.regions, ∀ y ∈ m.regions, x = y ∨ x.stop ≤ y.start ∨ y.stop ≤ x.start :=
    fun x hx y hy => List.Pairwise.forall_of_forall_of_flip (R := fun x y =>
        x = y ∨ x.stop ≤ y.start ∨ y.stop ≤ x.start) (fun _ _ => Or.inl rfl)
      (h.sorted.imp fun hle => Or.inr (Or.inl hle)) (h.sorted.imp fun hle => Or.inr (Or.inr hle))
      hx hy
  rcases hdisjoint r hr s hs with heq | hle | hle
  · exact heq
  all_goals omega

/-- On well-formed maps `view` is the function with graph `Maps`. -/
theorem WellFormed.view_eq_some_iff (h : m.WellFormed) :
    m.view address = some v ↔ m.Maps address v := by
  constructor
  · intro hview
    obtain ⟨r, hfind, hv⟩ := Option.map_eq_some_iff.mp hview
    have hcontains := List.find?_some hfind
    simp only [Region.contains, Bool.and_eq_true, decide_eq_true_eq] at hcontains
    exact ⟨r, List.mem_of_find?_eq_some hfind, hcontains.1, hcontains.2, hv⟩
  · rintro ⟨r, hr, hr1, hr2, rfl⟩
    cases hfind : m.regionAt address with
    | none =>
      have := List.find?_eq_none.mp hfind r hr
      simp [Region.contains, hr1, hr2] at this
    | some s =>
      have hcontains := List.find?_some hfind
      simp only [Region.contains, Bool.and_eq_true, decide_eq_true_eq] at hcontains
      have heq := h.eq_of_mem (List.mem_of_find?_eq_some hfind) hr hcontains.1 hcontains.2 hr1 hr2
      simp [view, hfind, heq]

/-- Two well-formed maps have the same value at an address when their graphs agree there. -/
theorem WellFormed.view_eq_of_maps (h : m.WellFormed) (h' : m'.WellFormed)
    (hiff : ∀ v, m'.Maps address v ↔ m.Maps address v) : m'.view address = m.view address := by
  apply Option.ext
  intro v
  rw [h'.view_eq_some_iff, h.view_eq_some_iff]
  exact hiff v

/-! ## Alignment -/

theorem aligned_iff {a : ℕ} : aligned a = true ↔ pageSize ∣ a := by
  simp [aligned, Nat.dvd_iff_mod_eq_zero]

/-- `pageUp` returns the least page boundary at or above its argument. -/
theorem pageUp_eq_some {a up : ℕ} (h : pageUp a = some up) :
    pageSize ∣ up ∧ a ≤ up ∧ up < a + pageSize := by
  simp only [pageUp] at h
  split at h
  · cases h
    refine ⟨Nat.dvd_mul_left _ _, ?_, ?_⟩ <;> simp only [pageSize] <;> omega
  · cases h

/-! ## `insert` -/

/-- A failed `insert` leaves the map as it was. -/
theorem insert_error {r : Region} {e : Errno} (h : (m.insert r).1 = .error e) :
    (m.insert r).2 = m := by
  unfold insert at h ⊢
  split_ifs at h ⊢ <;> rfl

/-- Regions that do not overlap `start..stop` lie on one side of it. -/
theorem overlaps_eq_false_iff :
    m.overlaps start stop = false ↔ ∀ r ∈ m.regions, r.stop ≤ start ∨ stop ≤ r.start := by
  simp only [overlaps, List.any_eq_false, Bool.and_eq_true, decide_eq_true_eq, not_and_or, not_lt]

/-- When `insert` succeeds the region was aligned, non-empty and free of overlaps. -/
theorem insert_ok {r : Region} (h : m.insert r = (.ok (), m')) :
    r.start < r.stop ∧ pageSize ∣ r.start ∧ pageSize ∣ r.stop ∧
      m.overlaps r.start r.stop = false ∧
      m' = { m with regions := m.regions.orderedInsert (fun a b => a.start ≤ b.start) r } := by
  unfold insert at h
  split_ifs at h with hbad hover
  · cases congrArg Prod.fst h
  · cases congrArg Prod.fst h
  · simp only [ge_iff_le, Bool.or_eq_true, decide_eq_true_eq, Bool.not_eq_eq_eq_not, Bool.not_true,
      not_or, not_le, Bool.not_eq_false, aligned_iff] at hbad
    exact ⟨hbad.1.1, hbad.1.2, hbad.2, by simpa using hover, (congrArg Prod.snd h).symm⟩

/-- `insert` succeeds on an aligned, non-empty region without overlaps. -/
theorem insert_eq_ok {r : Region} (hne : r.start < r.stop) (hstart : pageSize ∣ r.start)
    (hstop : pageSize ∣ r.stop) (hover : m.overlaps r.start r.stop = false) :
    m.insert r =
      (.ok (), { m with regions := m.regions.orderedInsert (fun a b => a.start ≤ b.start) r }) := by
  have h1 := aligned_iff.mpr hstart
  have h2 := aligned_iff.mpr hstop
  simp [insert, h1, h2, hover, hne]

/-- Inserting a region that overlaps nothing keeps the regions sorted and disjoint. -/
theorem pairwise_orderedInsert {l : List Region} {r : Region} (hr : r.start < r.stop)
    (hne : ∀ x ∈ l, x.start < x.stop) (hsorted : l.Pairwise fun x y => x.stop ≤ y.start)
    (hover : ∀ x ∈ l, x.stop ≤ r.start ∨ r.stop ≤ x.start) :
    (l.orderedInsert (fun a b => a.start ≤ b.start) r).Pairwise fun x y => x.stop ≤ y.start := by
  induction l with
  | nil => simp
  | cons x l ih =>
    rw [List.pairwise_cons] at hsorted
    have hx := hne x List.mem_cons_self
    have hxr := hover x List.mem_cons_self
    rw [List.orderedInsert_cons]
    split_ifs with hle
    · have hrx : r.stop ≤ x.start := by omega
      refine List.pairwise_cons.mpr ⟨?_, List.pairwise_cons.mpr hsorted⟩
      intro y hy
      rcases List.mem_cons.mp hy with rfl | hy
      · exact hrx
      · have := hsorted.1 y hy
        omega
    · refine List.pairwise_cons.mpr ⟨?_, ih (fun y hy => hne y (List.mem_cons_of_mem _ hy))
        hsorted.2 fun y hy => hover y (List.mem_cons_of_mem _ hy)⟩
      intro y hy
      rcases (List.mem_orderedInsert _).mp hy with rfl | hy
      · omega
      · exact hsorted.1 y hy

/-- `insert` keeps the map well formed. -/
theorem WellFormed.insert (h : m.WellFormed) {r : Region} (hok : m.insert r = (.ok (), m')) :
    m'.WellFormed := by
  obtain ⟨hne, hstart, hstop, hover, rfl⟩ := insert_ok hok
  have hmem : ∀ x, x ∈ m.regions.orderedInsert (fun a b => a.start ≤ b.start) r ↔
      x = r ∨ x ∈ m.regions := fun x => List.mem_orderedInsert _
  refine ⟨pairwise_orderedInsert hne h.nonempty h.sorted (overlaps_eq_false_iff.mp hover),
    ?_, ?_, ?_, h.brkStart_aligned⟩
  all_goals
    intro x hx
    rcases (hmem x).mp hx with rfl | hx
  · exact hne
  · exact h.nonempty x hx
  · exact hstart
  · exact h.start_aligned x hx
  · exact hstop
  · exact h.stop_aligned x hx

/-- `insert` adds exactly the region's addresses to the graph. -/
theorem maps_insert {r : Region} (hok : m.insert r = (.ok (), m')) :
    m'.Maps address v ↔
      m.Maps address v ∨ (r.start ≤ address ∧ address < r.stop ∧ r.viewAt address = v) := by
  obtain ⟨-, -, -, -, rfl⟩ := insert_ok hok
  simp only [Maps, List.mem_orderedInsert]
  constructor
  · rintro ⟨x, rfl | hx, hrest⟩
    · exact Or.inr hrest
    · exact Or.inl ⟨x, hx, hrest⟩
  · rintro (⟨x, hx, hrest⟩ | hrest)
    · exact ⟨x, Or.inr hx, hrest⟩
    · exact ⟨r, Or.inl rfl, hrest⟩

/-! ## `remove` -/

/-- What `remove` keeps of a region maps the region's addresses outside `start..stop`. -/
theorem exists_mem_keptPieces {r : Region} :
    (∃ x ∈ keptPieces start stop r, x.start ≤ address ∧ address < x.stop ∧
        x.viewAt address = v) ↔
      (r.start ≤ address ∧ address < r.stop ∧ r.viewAt address = v) ∧
        ¬(start ≤ address ∧ address < stop) := by
  unfold keptPieces
  by_cases hout : r.stop ≤ start ∨ stop ≤ r.start
  · have : (decide (r.stop ≤ start) || decide (stop ≤ r.start)) = true := by simpa using hout
    rw [if_pos this]
    simp only [List.mem_singleton, exists_eq_left]
    constructor
    · rintro ⟨h1, h2, h3⟩
      exact ⟨⟨h1, h2, h3⟩, by omega⟩
    · rintro ⟨⟨h1, h2, h3⟩, -⟩
      exact ⟨h1, h2, h3⟩
  · have : ¬((decide (r.stop ≤ start) || decide (stop ≤ r.start)) = true) := by simpa using hout
    rw [if_neg this]
    rw [not_or, not_le, not_le] at hout
    simp only [List.mem_append]
    constructor
    · rintro ⟨x, hx | hx, h1, h2, h3⟩
      · split_ifs at hx with hlt
        · rw [List.mem_singleton] at hx
          subst hx
          simp only [Region.piece] at h1 h2
          rw [Region.viewAt_piece le_rfl h1] at h3
          exact ⟨⟨h1, by omega, h3⟩, by omega⟩
        · cases hx
      · split_ifs at hx with hlt
        · rw [List.mem_singleton] at hx
          subst hx
          simp only [Region.piece] at h1 h2
          rw [Region.viewAt_piece hout.2.le h1] at h3
          exact ⟨⟨by omega, h2, h3⟩, by omega⟩
        · cases hx
    · rintro ⟨⟨h1, h2, h3⟩, hnot⟩
      rcases lt_or_ge address start with hlt | hge
      · refine ⟨r.piece r.start start, Or.inl ?_, h1, hlt, ?_⟩
        · rw [if_pos (by omega)]
          exact List.mem_singleton_self _
        · rw [Region.viewAt_piece le_rfl h1, h3]
      · have hstop : stop ≤ address := by omega
        refine ⟨r.piece stop r.stop, Or.inr ?_, hstop, h2, ?_⟩
        · rw [if_pos (by omega)]
          exact List.mem_singleton_self _
        · rw [Region.viewAt_piece hout.2.le hstop, h3]

/-- `remove` takes exactly `start..stop` out of the graph. -/
theorem maps_remove :
    (m.remove start stop).2.Maps address v ↔
      m.Maps address v ∧ ¬(start ≤ address ∧ address < stop) := by
  simp only [Maps, remove, List.mem_flatMap]
  constructor
  · rintro ⟨x, ⟨r, hr, hx⟩, hrest⟩
    obtain ⟨hin, hnot⟩ := exists_mem_keptPieces.mp ⟨x, hx, hrest⟩
    exact ⟨⟨r, hr, hin⟩, hnot⟩
  · rintro ⟨⟨r, hr, hin⟩, hnot⟩
    obtain ⟨x, hx, hrest⟩ := exists_mem_keptPieces.mpr ⟨hin, hnot⟩
    exact ⟨x, ⟨r, hr, hx⟩, hrest⟩

/-- Pieces kept by `remove` stay inside their region, on one side of `start..stop`. -/
theorem mem_keptPieces {r x : Region} (hne : r.start < r.stop) (hx : x ∈ keptPieces start stop r) :
    r.start ≤ x.start ∧ x.start < x.stop ∧ x.stop ≤ r.stop ∧
      (x.start = r.start ∨ x.start = stop) ∧ (x.stop = r.stop ∨ x.stop = start) ∧
      (x.stop ≤ start ∨ stop ≤ x.start) := by
  unfold keptPieces at hx
  split_ifs at hx with hout h1 h2 h2 <;>
    simp only [Bool.or_eq_true, decide_eq_true_eq, not_or, not_le] at hout
  · rw [List.mem_singleton] at hx
    subst hx
    exact ⟨le_rfl, hne, le_rfl, Or.inl rfl, Or.inl rfl, hout⟩
  all_goals simp only [List.append_nil, List.nil_append, List.mem_append, List.mem_singleton,
    List.not_mem_nil] at hx
  · rcases hx with rfl | rfl
    · exact ⟨le_rfl, h1, hout.1.le, Or.inl rfl, Or.inr rfl, Or.inl le_rfl⟩
    · exact ⟨hout.2.le, h2, le_rfl, Or.inr rfl, Or.inl rfl, Or.inr le_rfl⟩
  · subst hx
    exact ⟨le_rfl, h1, hout.1.le, Or.inl rfl, Or.inr rfl, Or.inl le_rfl⟩
  · subst hx
    exact ⟨hout.2.le, h2, le_rfl, Or.inr rfl, Or.inl rfl, Or.inr le_rfl⟩

/-- `remove` of a page-aligned range keeps the map well formed. -/
theorem WellFormed.remove (h : m.WellFormed) (hstart : pageSize ∣ start) (hstop : pageSize ∣ stop)
    (hle : start ≤ stop) : (m.remove start stop).2.WellFormed := by
  have hpiece : ∀ x ∈ (m.remove start stop).2.regions, ∃ r ∈ m.regions,
      x ∈ keptPieces start stop r := fun x hx => List.mem_flatMap.mp hx
  refine ⟨?_, ?_, ?_, ?_, h.brkStart_aligned⟩
  · refine List.pairwise_flatMap.mpr ⟨fun r hr => ?_, ?_⟩
    · -- at most two pieces of one region, separated by the removed range
      unfold keptPieces
      split_ifs <;> simp [Region.piece, hle]
    · refine h.sorted.imp_of_mem fun {r s} hr hs hrs x hx y hy => ?_
      have hx' := mem_keptPieces (h.nonempty r hr) hx
      have hy' := mem_keptPieces (h.nonempty s hs) hy
      omega
  · intro x hx
    obtain ⟨r, hr, hxr⟩ := hpiece x hx
    exact (mem_keptPieces (h.nonempty r hr) hxr).2.1
  · intro x hx
    obtain ⟨r, hr, hxr⟩ := hpiece x hx
    rcases (mem_keptPieces (h.nonempty r hr) hxr).2.2.2.1 with heq | heq <;> rw [heq]
    · exact h.start_aligned r hr
    · exact hstop
  · intro x hx
    obtain ⟨r, hr, hxr⟩ := hpiece x hx
    rcases (mem_keptPieces (h.nonempty r hr) hxr).2.2.2.2.1 with heq | heq <;> rw [heq]
    · exact h.stop_aligned r hr
    · exact hstart

/-- After `remove`, no region overlaps the removed range. -/
theorem WellFormed.overlaps_remove (h : m.WellFormed) :
    (m.remove start stop).2.overlaps start stop = false := by
  refine overlaps_eq_false_iff.mpr fun x hx => ?_
  obtain ⟨r, hr, hxr⟩ := List.mem_flatMap.mp hx
  exact (mem_keptPieces (h.nonempty r hr) hxr).2.2.2.2.2

/-- Removing a range that no region overlaps changes nothing. -/
theorem remove_of_overlaps_eq_false (hover : m.overlaps start stop = false) :
    m.remove start stop = ([], m) := by
  have hside := overlaps_eq_false_iff.mp hover
  have hspans : ∀ l : List Region, (∀ r ∈ l, r.stop ≤ start ∨ stop ≤ r.start) →
      l.flatMap (removedSpans start stop) = [] ∧ l.flatMap (keptPieces start stop) = l := by
    intro l hl
    induction l with
    | nil => simp
    | cons r l ih =>
      have hr := hl r List.mem_cons_self
      obtain ⟨ih1, ih2⟩ := ih fun x hx => hl x (List.mem_cons_of_mem _ hx)
      simp [List.flatMap_cons, removedSpans, keptPieces, hr, ih1, ih2]
  obtain ⟨h1, h2⟩ := hspans m.regions hside
  simp [remove, h1, h2]

end MemoryMap

/-! ## Spans -/

/-- Some span of the list contains `address`. -/
def InSpans (spans : List Span) (address : ℕ) : Prop :=
  ∃ span ∈ spans, span.start ≤ address ∧ address < span.stop

/-- Spans in address order, non-empty, disjoint and page aligned. -/
structure SpansOrdered (spans : List Span) : Prop where
  sorted : spans.Pairwise fun r s => r.stop ≤ s.start
  nonempty : ∀ span ∈ spans, span.start < span.stop
  aligned : ∀ span ∈ spans, pageSize ∣ span.start ∧ pageSize ∣ span.stop

namespace MemoryMap

variable {m m' : MemoryMap} {address start stop : ℕ} {v : Protection × RegionKind}

theorem mem_removedSpans {r : Region} {span : Span} :
    span ∈ removedSpans start stop r ↔ start < r.stop ∧ r.start < stop ∧
      span = ⟨max r.start start, min r.stop stop, r.protection⟩ := by
  unfold removedSpans
  split_ifs with hout
  · simp only [Bool.or_eq_true, decide_eq_true_eq] at hout
    simp only [List.not_mem_nil, false_iff]
    rintro ⟨h1, h2, -⟩
    omega
  · simp only [Bool.or_eq_true, decide_eq_true_eq, not_or, not_le] at hout
    simp [hout]

/-- The spans `remove` returns are exactly the mapped addresses of the range. -/
theorem inSpans_remove :
    InSpans (m.remove start stop).1 address ↔
      (start ≤ address ∧ address < stop) ∧ ∃ v, m.Maps address v := by
  simp only [InSpans, remove, List.mem_flatMap, Maps, mem_removedSpans]
  constructor
  · rintro ⟨span, ⟨r, hr, h1, h2, rfl⟩, h3, h4⟩
    simp only [sup_le_iff, lt_inf_iff] at h3 h4
    exact ⟨⟨h3.2, h4.2⟩, _, r, hr, h3.1, h4.1, rfl⟩
  · rintro ⟨⟨h1, h2⟩, v, r, hr, h3, h4, -⟩
    exact ⟨_, ⟨r, hr, by omega, by omega, rfl⟩, max_le h3 h1, lt_min h4 h2⟩

/-- The spans `remove` returns are in order, non-empty and page aligned. -/
theorem WellFormed.spansOrdered_remove (h : m.WellFormed) (hstart : pageSize ∣ start)
    (hstop : pageSize ∣ stop) (hlt : start < stop) : SpansOrdered (m.remove start stop).1 := by
  have hspan : ∀ span ∈ (m.remove start stop).1, ∃ r ∈ m.regions, start < r.stop ∧
      r.start < stop ∧ span = ⟨max r.start start, min r.stop stop, r.protection⟩ := by
    intro span hmem
    obtain ⟨r, hr, hin⟩ := List.mem_flatMap.mp hmem
    exact ⟨r, hr, mem_removedSpans.mp hin⟩
  refine ⟨?_, ?_, ?_⟩
  · refine List.pairwise_flatMap.mpr ⟨fun r _ => ?_, ?_⟩
    · unfold removedSpans
      split_ifs <;> simp
    · refine h.sorted.imp fun {r s} hrs x hx y hy => ?_
      obtain ⟨-, -, rfl⟩ := mem_removedSpans.mp hx
      obtain ⟨-, -, rfl⟩ := mem_removedSpans.mp hy
      exact (min_le_left _ _).trans (hrs.trans (le_max_left _ _))
  · intro span hmem
    obtain ⟨r, hr, h1, h2, rfl⟩ := hspan span hmem
    have := h.nonempty r hr
    simp only [sup_lt_iff, lt_inf_iff]
    omega
  · intro span hmem
    obtain ⟨r, hr, -, -, rfl⟩ := hspan span hmem
    refine ⟨?_, ?_⟩
    · rcases max_choice r.start start with heq | heq <;> simp only [heq]
      · exact h.start_aligned r hr
      · exact hstart
    · rcases min_choice r.stop stop with heq | heq <;> simp only [heq]
      · exact h.stop_aligned r hr
      · exact hstop

/-! ## `mmap` -/

/-- A gap found by `find_free` ends below the top it searched from and above the floor. -/
theorem findFreeBelow_eq_some {length floor : ℕ} {l : List Region} {top found : ℕ}
    (h : findFreeBelow length floor l top = some found) : floor ≤ found ∧ found + length ≤ top := by
  induction l generalizing top with
  | nil =>
    simp only [findFreeBelow] at h
    split_ifs at h with hfit
    simp only [Bool.and_eq_true, decide_eq_true_eq] at hfit
    cases h
    omega
  | cons r l ih =>
    simp only [findFreeBelow] at h
    split_ifs at h with h1 h2 h3
    · exact ih h
    · simp only [Bool.and_eq_true, decide_eq_true_eq] at h2
      cases h
      omega
    · have := ih h
      omega

/-- Where `place` puts a mapping: above `minAddress`, below `mmapTop`, and with the requested range
removed first. When not `fixed` there is nothing to remove there or `insert` will refuse it. -/
theorem choosePlace_ok {hint length found : ℕ} {fixed : Bool} {replaced : List Span}
    (h : m.choosePlace hint length fixed = (.ok (found, replaced), m')) :
    minAddress ≤ found ∧ found + length ≤ m.mmapTop ∧
      ((fixed = true ∧ found = hint ∧ (replaced, m') = m.remove hint (hint + length)) ∨
        (fixed = false ∧ replaced = [] ∧ m' = m)) := by
  have husable : ∀ start, m.usable length start = true →
      minAddress ≤ start ∧ start + length ≤ m.mmapTop := by
    intro start hu
    simp only [usable, checkedAdd, Bool.and_eq_true, decide_eq_true_eq] at hu
    obtain ⟨⟨h1, -⟩, h2⟩ := hu
    split at h2
    next stop hstop =>
      split_ifs at hstop
      cases hstop
      exact ⟨h1, by simpa using h2⟩
    next => cases h2
  unfold choosePlace at h
  cases fixed with
  | true =>
    simp only [↓reduceIte] at h
    split_ifs at h with hu
    · cases h
      exact ⟨(husable _ hu).1, (husable _ hu).2, Or.inl ⟨rfl, rfl, rfl⟩⟩
    · cases congrArg Prod.fst h
  | false =>
    simp only [Bool.false_eq_true, ↓reduceIte] at h
    split_ifs at h with hu
    · simp only [Bool.and_eq_true] at hu
      cases h
      exact ⟨(husable _ hu.1.2).1, (husable _ hu.1.2).2, Or.inr ⟨rfl, rfl, rfl⟩⟩
    · cases hfree : m.findFree length with
      | none =>
        rw [hfree] at h
        cases congrArg Prod.fst h
      | some start =>
        rw [hfree] at h
        cases h
        unfold findFree at hfree
        split at hfree
        · cases hfree
        · have hbound := findFreeBelow_eq_some hfree
          exact ⟨(le_max_right _ _).trans hbound.1, hbound.2, Or.inr ⟨rfl, rfl, rfl⟩⟩

/-- A failed `choosePlace` leaves the map as it was. -/
theorem choosePlace_error {hint length : ℕ} {fixed : Bool} {e : Errno}
    (h : m.choosePlace hint length fixed = (.error e, m')) : m' = m := by
  unfold choosePlace at h
  split_ifs at h
  · cases congrArg Prod.fst h
  · exact (congrArg Prod.snd h).symm
  · cases congrArg Prod.fst h
  · split at h
    · cases congrArg Prod.fst h
    · exact (congrArg Prod.snd h).symm

/-- The specification of a successful `place`: the rounded range is taken out of the map and the
new region inserted there. -/
structure Placed (m m' : MemoryMap) (hint length : ℕ) (protection : Protection) (fixed : Bool)
    (kind : RegionKind) (change : MmapChange) : Prop where
  bounds : minAddress ≤ change.address ∧ change.new.stop ≤ m.mmapTop
  new_eq : ∃ len, pageUp length = some len ∧ 0 < len ∧
    change.new = ⟨change.address, change.address + len, protection⟩
  fixed_eq : fixed = true → change.address = hint
  replaced_eq : change.replaced = (m.remove change.new.start change.new.stop).1
  insert_eq : (m.remove change.new.start change.new.stop).2.insert
    ⟨change.new.start, change.new.stop, protection, kind⟩ = (.ok (), m')
  not_fixed : fixed = false → m.overlaps change.new.start change.new.stop = false

/-- A positive length rounds up to a positive length. -/
theorem pageUp_pos {length len : ℕ} (h : pageUp length = some len) (hpos : length ≠ 0) :
    0 < len := by
  have := pageUp_eq_some h
  omega

theorem place_ok {hint length : ℕ} {protection : Protection} {fixed : Bool} {kind : RegionKind}
    {change : MmapChange}
    (h : m.place hint length protection fixed kind = (.ok change, m')) :
    Placed m m' hint length protection fixed kind change := by
  unfold place at h
  by_cases hzero : length = 0
  · rw [if_pos hzero] at h
    cases congrArg Prod.fst h
  rw [if_neg hzero] at h
  cases hup : pageUp length with
  | none =>
    rw [hup] at h
    cases congrArg Prod.fst h
  | some len =>
    rw [hup] at h
    by_cases haligned : (fixed && !aligned hint) = true
    · simp only [haligned, ↓reduceIte] at h
      cases congrArg Prod.fst h
    simp only [haligned, Bool.false_eq_true, ↓reduceIte] at h
    split at h
    next => cases congrArg Prod.fst h
    next found replaced m₁ hchoose =>
      split at h
      next => cases congrArg Prod.fst h
      next m₂ hinsert =>
        simp only [Prod.mk.injEq, Except.ok.injEq] at h
        obtain ⟨rfl, rfl⟩ := h
        obtain ⟨hlow, hhigh, hcase⟩ := choosePlace_ok hchoose
        have hpos := pageUp_pos hup hzero
        rcases hcase with ⟨hf, rfl, heq⟩ | ⟨hf, rfl, rfl⟩
        · have h1 := congrArg Prod.fst heq
          have h2 := congrArg Prod.snd heq
          simp only at h1 h2
          subst h1 h2
          exact ⟨⟨hlow, hhigh⟩, ⟨len, hup, hpos, rfl⟩, fun _ => rfl, rfl, hinsert,
            fun hff => by simp [hf] at hff⟩
        · have hover := (insert_ok hinsert).2.2.2.1
          have hremove := remove_of_overlaps_eq_false hover
          exact ⟨⟨hlow, hhigh⟩, ⟨len, hup, hpos, rfl⟩, fun hff => by simp [hf] at hff,
            by simp [hremove], by simpa [hremove] using hinsert, fun _ => hover⟩

/-- A failed `place` leaves the map as it was: once `fixed` has removed the old mappings, the
insertion cannot fail. -/
theorem WellFormed.place_error (hwf : m.WellFormed) {hint length : ℕ} {protection : Protection}
    {fixed : Bool} {kind : RegionKind} {e : Errno}
    (h : m.place hint length protection fixed kind = (.error e, m')) : m' = m := by
  unfold place at h
  by_cases hzero : length = 0
  · rw [if_pos hzero] at h
    exact (congrArg Prod.snd h).symm
  rw [if_neg hzero] at h
  cases hup : pageUp length with
  | none =>
    rw [hup] at h
    exact (congrArg Prod.snd h).symm
  | some len =>
    rw [hup] at h
    by_cases haligned : (fixed && !aligned hint) = true
    · simp only [haligned, ↓reduceIte] at h
      exact (congrArg Prod.snd h).symm
    simp only [haligned, Bool.false_eq_true, ↓reduceIte] at h
    split at h
    next e' m₁ hchoose =>
      cases h
      exact choosePlace_error hchoose
    next found replaced m₁ hchoose =>
      split at h
      next e' m₂ hinsert =>
        simp only [Prod.mk.injEq, Except.error.injEq] at h
        obtain ⟨rfl, rfl⟩ := h
        have hsame := insert_error (congrArg Prod.fst hinsert)
        rw [hinsert] at hsame
        obtain ⟨-, -, hcase⟩ := choosePlace_ok hchoose
        rcases hcase with ⟨hf, rfl, heq⟩ | ⟨hf, rfl, rfl⟩
        · exfalso
          have hm₁ := congrArg Prod.snd heq
          simp only at hm₁
          subst hm₁
          have hhint : pageSize ∣ found := by
            rw [← aligned_iff]
            simpa [hf] using haligned
          have hlen := (pageUp_eq_some hup).1
          have hpos := pageUp_pos hup hzero
          have hok := insert_eq_ok (m := (m.remove found (found + len)).2)
            (r := ⟨found, found + len, protection, kind⟩) (by simp [hpos]) hhint
            (Nat.dvd_add hhint hlen) hwf.overlaps_remove
          rw [hok] at hinsert
          cases congrArg Prod.fst hinsert
        · exact hsame
      next => cases congrArg Prod.fst h

end MemoryMap

end SaeOS.Vma
