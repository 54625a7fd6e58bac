import Mathlib.Order.Bounds.Basic
import SaeOS.Mm.VmaRun

/-!
# Where `mmap` places a mapping

`find_free` walks the regions from the highest down. On a well-formed map it finds the highest free range
of its length between the heap and the top of the mappings, and none only where there is none
(`reachable_placesHighest`). For whole pages, which is what `place` has rounded lengths to, the range lies
on a page boundary; for other lengths it need not (`not_highest_aligned`).
-/

namespace SaeOS.Vma

namespace MemoryMap

variable {m m' : MemoryMap} {length floor top a : ℕ}

/-- A place for `length` bytes: above the heap and `minAddress`, below `mmapTop`, and without overlaps. -/
structure Vacant (m : MemoryMap) (length a : ℕ) : Prop where
  above : ∃ heapEnd, pageUp m.brk = some heapEnd ∧ max heapEnd minAddress ≤ a
  below : a + length ≤ m.mmapTop
  free : m.overlaps a (a + length) = false

/-- A place on a page boundary. -/
structure Free (m : MemoryMap) (length a : ℕ) : Prop extends m.Vacant length a where
  aligned : pageSize ∣ a

/-- What a search finds is the greatest element of `S`, and it fails only where there is none. -/
def IsHighest (S : Set ℕ) : Option ℕ → Prop
  | some found => IsGreatest S found
  | none => ∀ a, a ∉ S

theorem IsHighest.eq_some_iff {S : Set ℕ} {o : Option ℕ} (h : IsHighest S o) {found : ℕ} :
    o = some found ↔ IsGreatest S found := by
  cases o with
  | none => exact iff_of_false (by simp) fun hgreatest => h found hgreatest.1
  | some found' =>
    rw [Option.some.injEq]
    exact ⟨fun heq => heq ▸ h, fun hgreatest => h.unique hgreatest⟩

theorem IsHighest.eq_none_iff {S : Set ℕ} {o : Option ℕ} (h : IsHighest S o) :
    o = none ↔ ∀ a, a ∉ S := by
  cases o with
  | none => exact iff_of_true rfl h
  | some found => exact iff_of_false (by simp) fun hnone => hnone found h.1

/-- The range fits between `floor` and `top`, beside all these regions. -/
def Fits (length floor : ℕ) (l : List Region) (top a : ℕ) : Prop :=
  floor ≤ a ∧ a + length ≤ top ∧ ∀ r ∈ l, r.stop ≤ a ∨ a + length ≤ r.start

/-! ## The search -/

/-- A region at or above the ceiling is in nobody's way. -/
theorem fits_cons_of_le {r : Region} {l : List Region} (h : top ≤ r.start) :
    Fits length floor (r :: l) top a ↔ Fits length floor l top a := by
  refine and_congr_right fun _ => and_congr_right fun hbelow => ?_
  rw [List.forall_mem_cons]
  exact and_iff_right (.inr (hbelow.trans h))

/-- With too little room above a region, the ceiling is its start. -/
theorem fits_cons_of_lt {r : Region} {l : List Region} (hlt : r.start < top)
    (hroom : ¬(r.stop ≤ top ∧ length ≤ top - r.stop)) :
    Fits length floor (r :: l) top a ↔ Fits length floor l r.start a := by
  constructor
  · rintro ⟨hfloor, hbelow, hfree⟩
    obtain ⟨hr, hfree⟩ := List.forall_mem_cons.mp hfree
    exact ⟨hfloor, by omega, hfree⟩
  · rintro ⟨hfloor, hbelow, hfree⟩
    exact ⟨hfloor, by omega, List.forall_mem_cons.mpr ⟨.inr hbelow, hfree⟩⟩

/-- What the search finds is the highest place below its ceiling, and it fails only where there is none.
The regions come from the highest down. -/
theorem findFreeBelow_spec {l : List Region} (hsorted : l.Pairwise fun r s => s.stop ≤ r.start)
    (hnonempty : ∀ r ∈ l, r.start < r.stop) (top : ℕ) :
    IsHighest {a | Fits length floor l top a} (findFreeBelow length floor l top) := by
  induction l generalizing top with
  | nil =>
    rw [findFreeBelow]
    split
    · rename_i hroom
      simp only [Bool.and_eq_true, decide_eq_true_eq] at hroom
      refine ⟨⟨hroom.2, by omega, (by simp)⟩, ?_⟩
      rintro a ⟨-, hbelow, -⟩
      omega
    · rename_i hroom
      rintro a ⟨hfloor, hbelow, -⟩
      simp only [Bool.and_eq_true, decide_eq_true_eq] at hroom
      omega
  | cons r l ih =>
    obtain ⟨hr, hsorted⟩ := List.pairwise_cons.mp hsorted
    obtain ⟨hrne, hnonempty⟩ := List.forall_mem_cons.mp hnonempty
    rw [findFreeBelow]
    by_cases habove : r.start ≥ top
    · simp only [if_pos habove, fits_cons_of_le habove]
      exact ih hsorted hnonempty top
    rw [if_neg habove]
    by_cases hroom : r.stop ≤ top ∧ length ≤ top - r.stop
    · -- the range right below the ceiling is free, and no place is higher
      rw [if_pos (by simpa using hroom)]
      by_cases hfloor : top - length ≥ floor
      · rw [if_pos hfloor]
        refine ⟨⟨hfloor, by omega, List.forall_mem_cons.mpr ⟨.inl (by omega), fun s hs => .inl ?_⟩⟩, ?_⟩
        · have hs := hr s hs
          omega
        · rintro a ⟨-, hbelow, -⟩
          omega
      · rw [if_neg hfloor]
        rintro a ⟨hfloor', hbelow, -⟩
        omega
    · have hmin : min top r.start = r.start := min_eq_right (by omega)
      rw [if_neg (by simpa using hroom), hmin]
      simp only [fits_cons_of_lt (not_le.mp habove) hroom]
      exact ih hsorted hnonempty r.start

/-- The ceiling only moves to region starts, so what is found lies on a page boundary. -/
theorem findFreeBelow_aligned {l : List Region} {found : ℕ} (hlength : pageSize ∣ length)
    (hregions : ∀ r ∈ l, pageSize ∣ r.start) (htop : pageSize ∣ top)
    (h : findFreeBelow length floor l top = some found) : pageSize ∣ found := by
  induction l generalizing top with
  | nil =>
    rw [findFreeBelow] at h
    split at h
    · obtain rfl := Option.some.inj h
      exact Nat.dvd_sub htop hlength
    · contradiction
  | cons r l ih =>
    obtain ⟨hr, hregions⟩ := List.forall_mem_cons.mp hregions
    rw [findFreeBelow] at h
    split at h
    · exact ih hregions htop h
    split at h
    · split at h
      · obtain rfl := Option.some.inj h
        exact Nat.dvd_sub htop hlength
      · contradiction
    · rename_i habove _
      rw [min_eq_right (by omega)] at h
      exact ih hregions hr h

/-- `find_free` on a well-formed map. -/
theorem WellFormed.findFree_spec (h : m.WellFormed) (length : ℕ) :
    IsHighest {a | m.Vacant length a} (m.findFree length) := by
  rw [findFree]
  cases hheap : pageUp m.brk with
  | none =>
    rintro a ⟨⟨heapEnd, hend, -⟩, -, -⟩
    exact absurd (hheap.symm.trans hend) (by simp)
  | some heapEnd =>
    have hsame : {a | m.Vacant length a} =
        {a | Fits length (max heapEnd minAddress) m.regions.reverse m.mmapTop a} := by
      ext a
      constructor
      · rintro ⟨⟨heapEnd', hend, habove⟩, hbelow, hfree⟩
        obtain rfl := Option.some.inj (hheap.symm.trans hend)
        exact ⟨habove, hbelow, fun r hr => overlaps_eq_false_iff.mp hfree r (List.mem_reverse.mp hr)⟩
      · rintro ⟨habove, hbelow, hfree⟩
        exact ⟨⟨heapEnd, hheap, habove⟩, hbelow,
          overlaps_eq_false_iff.mpr fun r hr => hfree r (List.mem_reverse.mpr hr)⟩
    rw [hsame]
    exact findFreeBelow_spec (List.pairwise_reverse.mpr h.sorted)
      (fun r hr => h.nonempty r (List.mem_reverse.mp hr)) m.mmapTop

/-- For whole pages it finds the highest place on a page boundary. -/
theorem WellFormed.findFree_aligned (h : m.WellFormed) (htop : pageSize ∣ m.mmapTop)
    (hlength : pageSize ∣ length) : IsHighest {a | m.Free length a} (m.findFree length) := by
  have hspec := h.findFree_spec length
  cases hfound : m.findFree length with
  | none =>
    rw [hfound] at hspec
    exact fun a ha => hspec a ha.toVacant
  | some found =>
    rw [hfound] at hspec
    rw [findFree] at hfound
    cases hheap : pageUp m.brk with
    | none => simp [hheap] at hfound
    | some heapEnd =>
      rw [hheap] at hfound
      exact ⟨⟨hspec.1, findFreeBelow_aligned hlength
        (fun r hr => h.start_aligned r (List.mem_reverse.mp hr)) htop hfound⟩, fun a ha => hspec.2 ha.toVacant⟩

/-! ## `mmap` -/

/-- A mapping that may go anywhere fails only when its length is zero or there is no room for it. -/
theorem WellFormed.place_anywhere_error (h : m.WellFormed) (htop : pageSize ∣ m.mmapTop) {hint : ℕ}
    {protection : Protection} {kind : RegionKind} {e : Errno}
    (herr : m.place hint length protection false kind = (.error e, m')) :
    (e = .EINVAL ∧ length = 0) ∨ (e = .ENOMEM ∧ ∀ len, pageUp length = some len → ∀ a, ¬ m.Free len a) := by
  unfold place at herr
  by_cases hzero : length = 0
  · rw [if_pos hzero] at herr
    exact .inl ⟨(Except.error.inj (congrArg Prod.fst herr)).symm, hzero⟩
  rw [if_neg hzero] at herr
  cases hup : pageUp length with
  | none =>
    rw [hup] at herr
    exact .inr ⟨(Except.error.inj (congrArg Prod.fst herr)).symm, (by simp)⟩
  | some len =>
    have hlen := (pageUp_eq_some hup).1
    have hpos := pageUp_pos hup hzero
    rw [hup] at herr
    simp only [Bool.false_and, Bool.false_eq_true, ↓reduceIte, choosePlace] at herr
    by_cases hhint : (hint != 0 && m.usable len hint && !m.overlaps hint (hint + len)) = true
    · -- a usable hint is taken, and inserting there succeeds
      rw [if_pos hhint] at herr
      simp only [usable, Bool.and_eq_true, Bool.not_eq_true'] at hhint
      have hstart := aligned_iff.mp hhint.1.2.1.2
      have hinsert := insert_eq_ok (r := ⟨hint, hint + len, protection, kind⟩)
        (show hint < hint + len by omega) hstart (Nat.dvd_add hstart hlen) hhint.2
      simp only [hinsert] at herr
      exact absurd (congrArg Prod.fst herr) (by simp)
    · rw [if_neg hhint] at herr
      have hspec := h.findFree_aligned htop hlen
      cases hfound : m.findFree len with
      | none =>
        rw [hfound] at herr hspec
        refine .inr ⟨(Except.error.inj (congrArg Prod.fst herr)).symm, fun len' heq => ?_⟩
        obtain rfl := Option.some.inj heq
        exact hspec
      | some found =>
        rw [hfound] at herr hspec
        have hfree := hspec.1
        have hinsert := insert_eq_ok (r := ⟨found, found + len, protection, kind⟩)
          (show found < found + len by omega) hfree.aligned (Nat.dvd_add hfree.aligned hlen) hfree.free
        simp only [hinsert] at herr
        exact absurd (congrArg Prod.fst herr) (by simp)

/-- What `find_free` and `mmap` promise of a map. -/
structure PlacesHighest (m : MemoryMap) : Prop where
  highest : ∀ length found, m.findFree length = some found ↔ IsGreatest {a | m.Vacant length a} found
  none_iff : ∀ length, m.findFree length = none ↔ ∀ a, ¬ m.Vacant length a
  /-- Whole pages are placed on a page boundary. -/
  highest_aligned : ∀ length, pageSize ∣ length → ∀ found,
    m.findFree length = some found ↔ IsGreatest {a | m.Free length a} found
  none_iff_aligned : ∀ length, pageSize ∣ length →
    (m.findFree length = none ↔ ∀ a, ¬ m.Free length a)
  /-- A mapping that may go anywhere overlaps no region. -/
  apart : ∀ hint length protection change m', m.mmap hint length protection false = (.ok change, m') →
    m.overlaps change.new.start change.new.stop = false
  apart_device : ∀ hint length protection physical change m',
    m.mmapDevice hint length protection physical false = (.ok change, m') →
      m.overlaps change.new.start change.new.stop = false
  /-- It fails for want of memory only when there is no place for it. -/
  no_room : ∀ hint length protection e m', m.mmap hint length protection false = (.error e, m') →
    (e = .EINVAL ∧ length = 0) ∨ (e = .ENOMEM ∧ ∀ len, pageUp length = some len → ∀ a, ¬ m.Free len a)
  no_room_device : ∀ hint length protection physical m',
    m.mmapDevice hint length protection physical false = (.error .ENOMEM, m') →
      ∀ len, pageUp length = some len → ∀ a, ¬ m.Free len a

theorem WellFormed.placesHighest (h : m.WellFormed) (htop : pageSize ∣ m.mmapTop) : m.PlacesHighest where
  highest length _ := (h.findFree_spec length).eq_some_iff
  none_iff length := (h.findFree_spec length).eq_none_iff
  highest_aligned _ hlength _ := (h.findFree_aligned htop hlength).eq_some_iff
  none_iff_aligned _ hlength := (h.findFree_aligned htop hlength).eq_none_iff
  apart hint length protection change m' hok := (place_ok hok).not_fixed rfl
  apart_device hint length protection physical change m' hok := by
    rcases mmapDevice_eq hok with hplace | ⟨herr, -⟩
    · exact (place_ok hplace).not_fixed rfl
    · contradiction
  no_room hint length protection e m' herr := h.place_anywhere_error htop herr
  no_room_device hint length protection physical m' herr := by
    rcases mmapDevice_eq herr with hplace | ⟨herr', -⟩
    · rcases h.place_anywhere_error htop hplace with ⟨he, -⟩ | ⟨-, hnone⟩
      · contradiction
      · exact hnone
    · contradiction

/-! ## Every run -/

/-- No operation moves the top of the mappings. -/
theorem WellFormed.mmapTop_apply (h : m.WellFormed) (op : Op) : (m.apply op).2.mmapTop = m.mmapTop := by
  rcases hrun : m.apply op with ⟨result, m'⟩
  cases result with
  | error e => rw [h.apply_error hrun]
  | ok reply =>
    have hplace : ∀ {hint length protection fixed kind change},
        m.place hint length protection fixed kind = (.ok change, m') → m'.mmapTop = m.mmapTop := by
      intro hint length protection fixed kind change hok
      obtain ⟨-, -, -, -, rfl⟩ := insert_ok (place_ok hok).insert_eq
      rfl
    cases op with
    | insert region =>
      obtain ⟨⟨⟩, hins, -⟩ := relabel_eq_ok hrun
      obtain ⟨-, -, -, -, rfl⟩ := insert_ok hins
      rfl
    | mmap hint length protection fixed =>
      obtain ⟨change, hmap, -⟩ := relabel_eq_ok hrun
      exact hplace hmap
    | mmapDevice hint length protection physical fixed =>
      obtain ⟨change, hmap, -⟩ := relabel_eq_ok hrun
      rcases mmapDevice_eq hmap with hok | ⟨herr, -⟩
      · exact hplace hok
      · contradiction
    | munmap start length =>
      obtain ⟨spans, hunmap, -⟩ := relabel_eq_ok hrun
      obtain ⟨len, -, -, -, heq⟩ := munmap_ok hunmap
      have hm' : m' = (m.remove start (start + len)).2 := congrArg Prod.snd heq
      rw [hm']
      rfl
    | mprotect start length protection =>
      obtain ⟨spans, hprotect, -⟩ := relabel_eq_ok hrun
      obtain ⟨len, -, -, ⟨-, -, rfl⟩ | ⟨-, hr⟩⟩ := h.mprotect_ok hprotect
      · rfl
      · exact hr.frame.2.2
    | setBrk address =>
      obtain ⟨change, hbrk, -⟩ := relabel_eq_ok hrun
      exact (h.setBrk_ok hbrk).frame.2.2

/-- The map of a freshly exec'd program, whose mappings end on a page boundary. -/
def Fresh (m : MemoryMap) : Prop :=
  Initial m ∧ pageSize ∣ m.mmapTop

theorem reachable_placesHighest (h : Run.Reachable Fresh Step m) : m.PlacesHighest := by
  have hinv : m.WellFormed ∧ pageSize ∣ m.mmapTop := by
    refine h.invariant (P := fun m => m.WellFormed ∧ pageSize ∣ m.mmapTop) ?_ ?_
    · exact fun m hm => ⟨hm.1.wellFormed, hm.2⟩
    · rintro m op m' ⟨hwf, htop⟩ hstep
      refine ⟨hwf.step hstep, ?_⟩
      rw [← hstep, hwf.mmapTop_apply]
      exact htop
  exact hinv.1.placesHighest hinv.2

/-- One page below the top of the mappings is taken, and the heap has not grown. -/
def onePage : MemoryMap :=
  ⟨[⟨0x41000, 0x42000, .readWrite, .anonymous⟩], 0x40000, 0x40000, 0x42000⟩

theorem reachable_onePage : Run.Reachable Fresh Step onePage :=
  .start ⟨⟨[⟨0x41000, 0x42000, .readWrite, .anonymous⟩], 0x40000, 0x42000, by decide, by decide⟩, by decide⟩

theorem reachable_placesHighest_onePage : onePage.PlacesHighest :=
  reachable_placesHighest reachable_onePage

/-- A single byte goes to the end of the free page, although the page's start is free as well. -/
theorem not_highest_aligned : Run.Reachable Fresh Step onePage ∧
    onePage.findFree 1 = some 0x40fff ∧ onePage.Free 1 0x40000 ∧
    ¬ IsGreatest {a | onePage.Free 1 a} 0x40fff := by
  have hfree : onePage.Free 1 0x40000 :=
    ⟨⟨⟨0x40000, by decide, by decide⟩, by decide, by decide⟩, by decide⟩
  have hunaligned : ¬ pageSize ∣ 0x40fff := by decide
  exact ⟨reachable_onePage, by decide, hfree, fun hgreatest => hunaligned hgreatest.1.aligned⟩

example : onePage.findFree 0x1000 = some 0x40000 ∧ onePage.findFree 0x2000 = none := by decide

end MemoryMap

end SaeOS.Vma
