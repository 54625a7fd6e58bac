import Mathlib.Data.List.MinMax
import SaeOS.Exec.ElfPlan
import SaeOS.Lib.PlacedBytes
import SaeOS.Mm.VmaRun

/-!
# The image of a program

`exec/mod.rs`: the memory map of a loaded program, and its image, the pages of its segments written one by
one. An image is a byte or nothing for each address; frames and page tables are left out.

For every plan the image is the one its segments describe (`safe_load`), and below the stack guard the
memory map can be built (`memoryMap_ok`).
-/

namespace SaeOS.Exec

open Checked Elf
open Vma (pageSize)

/-- `USER_TOP`. -/
def userTop : ℕ := 0x0000_7fff_ffff_f000

/-- The page above the initial stack stays unmapped. -/
def userStackTop : ℕ := userTop - pageSize

def userStackPages : ℕ := 32

/-- One unmapped guard page below the stack; programs load beneath it. -/
def userStackGuard : ℕ := userStackTop - (userStackPages + 1) * pageSize

/-! ## The memory map -/

def segmentRegion (segment : Segment) : Vma.Region where
  start := segment.start
  stop := segment.stop
  protection := ⟨true, segment.flags.write, segment.flags.execute⟩
  kind := .image

def stackRegion : Vma.Region where
  start := userStackTop - userStackPages * pageSize
  stop := userStackTop
  protection := .readWrite
  kind := .stack

/-- The segments and the stack; the heap starts behind the highest segment, and `mmap` uses the space
below the stack guard. -/
def memoryMap (plan : LoadPlan) : Except Errno Vma.MemoryMap :=
  let regions := plan.segments.map segmentRegion ++ [stackRegion]
  let brkStart := (plan.segments.map (·.stop)).max?.getD Vma.minAddress
  match Vma.MemoryMap.new regions brkStart userStackGuard with
  | .ok map => .ok map
  | .error _ => .error .ENOEXEC

/-! ## The image -/

abbrev Image : Type := ℕ → Option UInt8

/-- The addresses `(start..end).step_by(PAGE)`. -/
def pages (segment : Segment) : List ℕ :=
  (List.range ((segment.stop - segment.start + (pageSize - 1)) / pageSize)).map
    fun i => segment.start + i * pageSize

/-- Copy one page of a segment into the image. -/
def loadPage (file : List UInt8) (segment : Segment) (image : Image) (page : ℕ) : Load Image := do
  let bytes ← pageContents segment file page
  return PlacedBytes.write image page bytes

/-- The loops of `prepare` over the segments and their pages. -/
def load (file : List UInt8) (plan : LoadPlan) : Load Image :=
  plan.segments.foldlM (fun image segment => (pages segment).foldlM (loadPage file segment) image)
    fun _ => none

/-- The byte a segment has at an address of its pages: the file's, or zero. -/
def byteAt (file : List UInt8) (segment : Segment) (address : ℕ) : UInt8 :=
  if segment.vaddr ≤ address ∧ address < segment.vaddr + segment.fileSize then
    file.getD (segment.fileOffset + (address - segment.vaddr)) 0
  else 0

/-- No error at all. -/
def Never (_ : Errno) : Prop :=
  False

variable {file : List UInt8} {top page : ℕ} {s : Segment}

/-! ## One page -/

/-- A page of a sound segment is written without panic, and holds the segment's bytes. -/
theorem safe_pageContents (h : s.Sound file top) (hstart : s.start ≤ page) (hstop : page + pageSize ≤ s.stop) :
    Safe Never (pageContents s file page) fun bytes => bytes.length = pageSize ∧
      ∀ i < pageSize, bytes[i]? = some (byteAt file s (page + i)) := by
  have hle := h.le_stop
  have hfits := h.fits
  have hinFile := h.inFile
  have hlt := h.stop_lt
  have hoffset := h.offset_lt
  unfold pageContents
  extract_lets out first
  have hout : out.length = pageSize := List.length_replicate
  have hzero : ∀ i < pageSize, out[i]? = some 0 := fun i hi => List.getElem?_replicate_of_lt hi
  have hfirst : first = max page s.vaddr := rfl
  clear_value out first
  refine (Safe.addWord (by omega)).bind fun dataEnd hdata => ?_
  refine (Safe.addWord (by omega)).bind fun pageEnd hpageEnd => ?_
  extract_lets stop
  have hstop : stop = min pageEnd dataEnd := rfl
  clear_value stop
  -- the file's bytes of this page are those from `first` to `stop`, if any
  have hhas : ∀ i < pageSize, s.vaddr ≤ page + i ∧ page + i < s.vaddr + s.fileSize ↔
      first ≤ page + i ∧ page + i < stop := by
    intro i hi
    omega
  split
  · rename_i hmeet
    refine (Safe.subWord (by omega)).bind fun _ heq => ?_
    subst heq
    refine (Safe.addWord (by omega)).bind fun source hsource => ?_
    refine (Safe.subWord (by omega)).bind fun destination hdestination => ?_
    refine (Safe.subWord (by omega)).bind fun length hlength => ?_
    refine (Safe.addWord (by omega)).bind fun _ heq => ?_
    subst heq
    refine (Safe.slice (by omega) (by omega)).bind fun bytes hbytes => ?_
    rw [Nat.add_sub_cancel_left] at hbytes
    have hlen : bytes.length = length := by
      rw [hbytes, List.length_take, List.length_drop]
      omega
    have hfit : destination + bytes.length ≤ out.length := by omega
    refine (Safe.copyInto hfit).mono fun result hresult => ⟨?_, fun i hi => ?_⟩
    · rw [hresult, List.length_append, List.length_append, List.length_take, List.length_drop]
      omega
    rw [hresult, getElem?_copied hfit, byteAt]
    have hhas := hhas i hi
    by_cases hin : first ≤ page + i ∧ page + i < stop
    · have hindex : source + (i - destination) = s.fileOffset + (page + i - s.vaddr) := by omega
      rw [if_pos (by omega), if_pos (hhas.mpr hin), hbytes, List.getElem?_take, if_pos (by omega),
        List.getElem?_drop, hindex, List.getD_eq_getElem?_getD, List.getElem?_eq_getElem (by omega)]
      rfl
    · rw [if_neg (by omega), if_neg (mt hhas.mp hin), hzero i hi]
  · refine .pure ⟨hout, fun i hi => ?_⟩
    have hhas := hhas i hi
    rw [hzero i hi, byteAt, if_neg (by omega)]

/-! ## All pages -/

/-- The image holds exactly the bytes of these segments. -/
structure Holds (file : List UInt8) (segments : List Segment) (image : Image) : Prop where
  inside : ∀ s ∈ segments, ∀ address, s.Has address → image address = some (byteAt file s address)
  outside : ∀ address, (∀ s ∈ segments, ¬ s.Has address) → image address = none

/-- The pages of a sound segment are whole, and they are where its addresses are. -/
theorem page_mem (h : s.Sound file top) (hpage : page ∈ pages s) :
    s.start ≤ page ∧ page + pageSize ≤ s.stop := by
  obtain ⟨i, hi, rfl⟩ := List.mem_map.mp hpage
  have hi := List.mem_range.mp hi
  have hstart := h.start_aligned
  have hstop := h.stop_aligned
  simp only [pageSize] at *
  omega

theorem has_iff_page (h : s.Sound file top) (address : ℕ) :
    s.Has address ↔ ∃ page ∈ pages s, page ≤ address ∧ address < page + pageSize := by
  constructor
  · rintro ⟨hstart, hstop⟩
    refine ⟨s.start + (address - s.start) / pageSize * pageSize, List.mem_map.mpr
      ⟨(address - s.start) / pageSize, List.mem_range.mpr ?_, rfl⟩, ?_⟩
    · simp only [pageSize]
      omega
    · simp only [pageSize]
      omega
  · rintro ⟨page, hpage, hle, hlt⟩
    have hmem := page_mem h hpage
    exact ⟨by omega, by omega⟩

/-- Page by page, a segment's bytes come into the image and nothing else changes. -/
theorem safe_loadPages (h : s.Sound file top) (image : Image) :
    Safe Never ((pages s).foldlM (loadPage file s) image) fun image' =>
      ∀ address, image' address = if s.Has address then some (byteAt file s address) else image address := by
  let Inv (done : List ℕ) (image' : Image) : Prop := ∀ address, image' address =
    if ∃ page ∈ done, page ≤ address ∧ address < page + pageSize then some (byteAt file s address)
    else image address
  have hloop : Safe Never ((pages s).foldlM (loadPage file s) image) (Inv ([] ++ pages s)) := by
    refine Safe.foldlM_upto Inv [] (fun address => by simp) fun done image' page hpage hdone => ?_
    -- a page changes its own addresses only
    obtain ⟨hstart, hstop⟩ := page_mem h hpage
    refine (safe_pageContents h hstart hstop).bind fun bytes ⟨hlength, hbytes⟩ => .pure fun address => ?_
    by_cases hin : page ≤ address ∧ address < page + pageSize
    · have hoffset : page + (address - page) = address := by omega
      rw [PlacedBytes.write_of_mem hin.1 (by omega), hbytes _ (by omega), hoffset,
        if_pos ⟨page, List.mem_append_right _ List.mem_cons_self, hin⟩]
    · rw [PlacedBytes.write_of_notMem (by omega), hdone]
      congr 1
      simp only [List.mem_append, List.mem_singleton, or_and_right, exists_or, exists_eq_left, hin, or_false]
  refine hloop.mono fun image' hdone address => ?_
  rw [hdone, List.nil_append]
  congr 1
  exact propext (has_iff_page h address).symm

/-- Loading succeeds, and gives the bytes of the segments. -/
theorem safe_load {plan : LoadPlan} (h : Loadable file top plan.segments) :
    Safe Never (load file plan) (Holds file plan.segments) := by
  let Inv (done : List Segment) (image : Image) : Prop := done ⊆ plan.segments ∧ Holds file done image
  have hloop : Safe Never (load file plan) (Inv ([] ++ plan.segments)) := by
    have hinit : Inv [] fun _ => none :=
      ⟨List.nil_subset _, ⟨(by simp), fun _ _ => rfl⟩⟩
    refine Safe.foldlM_upto Inv [] hinit fun done image s hs ⟨hsub, hdone⟩ => ?_
    refine (safe_loadPages (h.sound s hs) image).mono fun image' himage => ⟨?_, ?_, ?_⟩
    · exact List.append_subset.mpr ⟨hsub, List.cons_subset.mpr ⟨hs, List.nil_subset _⟩⟩
    · intro s' hs' address hhas
      rcases List.mem_append.mp hs' with hs' | hs'
      · by_cases hin : s.Has address
        · -- segments that meet are the same
          have heq : s' = s := h.eq_of_has (hsub hs') hs hhas hin
          rw [himage, if_pos hin, heq]
        · rw [himage, if_neg hin, hdone.inside s' hs' address hhas]
      · rw [List.mem_singleton.mp hs'] at hhas ⊢
        rw [himage, if_pos hhas]
    · intro address hnone
      have hs : ¬ s.Has address := hnone s (List.mem_append_right _ List.mem_cons_self)
      rw [himage, if_neg hs, hdone.outside address fun s' hs' => hnone s' (List.mem_append_left _ hs')]
  exact hloop.mono fun image hdone => hdone.2

/-! ## The memory map -/

/-- Regions that lie apart, also from those of the map, can all be inserted. -/
theorem exists_foldlM_insert {f : Vma.MemoryMap → Vma.Region → Except Errno Vma.MemoryMap}
    (hf : ∀ m r m', m.insert r = (.ok (), m') → f m r = .ok m') {regions : List Vma.Region}
    {m : Vma.MemoryMap} (hgood : ∀ r ∈ regions, r.start < r.stop ∧ pageSize ∣ r.start ∧ pageSize ∣ r.stop)
    (hapart : regions.Pairwise fun a b => a.stop ≤ b.start ∨ b.stop ≤ a.start)
    (hfree : ∀ r ∈ regions, ∀ x ∈ m.regions, x.stop ≤ r.start ∨ r.stop ≤ x.start) :
    ∃ m', regions.foldlM f m = .ok m' := by
  induction regions generalizing m with
  | nil => exact ⟨m, rfl⟩
  | cons r regions ih =>
    obtain ⟨⟨hne, hstart, hstop⟩, hgood⟩ := List.forall_mem_cons.mp hgood
    obtain ⟨hr, hapart⟩ := List.pairwise_cons.mp hapart
    obtain ⟨hfreeR, hfree⟩ := List.forall_mem_cons.mp hfree
    rw [List.foldlM_cons, hf m r _ (Vma.MemoryMap.insert_eq_ok hne hstart hstop
      (Vma.MemoryMap.overlaps_eq_false_iff.mpr hfreeR))]
    refine ih hgood hapart fun r' hr' x hx => ?_
    rcases (List.mem_orderedInsert _).mp hx with rfl | hx
    · exact hr r' hr'
    · exact hfree r' hr' x hx

/-- The memory map of a plan below the stack guard can be built. -/
theorem memoryMap_ok {plan : LoadPlan} (h : Loadable file userStackGuard plan.segments) :
    ∃ map, memoryMap plan = .ok map := by
  have hguard : userStackGuard ≤ stackRegion.start := by decide
  have hstack : stackRegion.start < stackRegion.stop ∧ pageSize ∣ stackRegion.start ∧
      pageSize ∣ stackRegion.stop := by decide
  obtain ⟨map, hmap⟩ : ∃ map, Vma.MemoryMap.new (plan.segments.map segmentRegion ++ [stackRegion])
      ((plan.segments.map (·.stop)).max?.getD Vma.minAddress) userStackGuard = .ok map := by
    unfold Vma.MemoryMap.new
    refine exists_foldlM_insert (fun m r m' hins => by rw [hins]) ?_ ?_
      fun _ _ x hx => absurd hx List.not_mem_nil
    · refine List.forall_mem_append.mpr ⟨List.forall_mem_map.mpr fun s hs => ?_, List.forall_mem_singleton.mpr hstack⟩
      have hs := h.sound s hs
      have hnonempty := hs.nonempty
      have hstart := hs.start_le
      have hstop := hs.le_stop
      exact ⟨show s.start < s.stop by omega, hs.start_aligned, hs.stop_aligned⟩
    · refine List.pairwise_append.mpr
        ⟨List.pairwise_map.mpr h.apart, List.pairwise_singleton _ _, List.forall_mem_map.mpr fun s hs r hr => ?_⟩
      rw [List.mem_singleton.mp hr]
      exact .inl ((h.sound s hs).below.trans hguard)
  refine ⟨map, ?_⟩
  rw [memoryMap, hmap]

/-! ## Loading a file -/

/-- Each segment's file bytes are at its address, the rest of its pages is zero, and there is nothing
else. -/
structure IsImage (file : List UInt8) (segments : List Segment) (image : Image) : Prop where
  fileBytes : ∀ s ∈ segments, ∀ i < s.fileSize,
    ∃ byte, file[s.fileOffset + i]? = some byte ∧ image (s.vaddr + i) = some byte
  zeros : ∀ s ∈ segments, ∀ address, s.Has address →
    (address < s.vaddr ∨ s.vaddr + s.fileSize ≤ address) → image address = some 0
  nothingElse : ∀ address, (∀ s ∈ segments, ¬ s.Has address) → image address = none

theorem Holds.isImage {segments : List Segment} {image : Image} (h : Holds file segments image)
    (hsegments : Loadable file top segments) : IsImage file segments image where
  fileBytes s hs i hi := by
    have hsound := hsegments.sound s hs
    have hstart := hsound.start_le
    have hstop := hsound.le_stop
    have hfits := hsound.fits
    have hinFile := hsound.inFile
    have hindex : s.fileOffset + (s.vaddr + i - s.vaddr) = s.fileOffset + i := by omega
    refine ⟨_, List.getElem?_eq_getElem (by omega), ?_⟩
    rw [h.inside s hs _ ⟨by omega, by omega⟩, byteAt, if_pos (by omega), hindex,
      List.getD_eq_getElem?_getD, List.getElem?_eq_getElem (by omega), Option.getD_some]
  zeros s hs address hhas hrest := by
    rw [h.inside s hs address hhas, byteAt, if_neg (by omega)]
  nothingElse := h.outside

/-- Every file is planned without panic or rejected. The segments of a plan can be loaded, also without
panic, to the image they describe, and below the stack guard they have a memory map. -/
theorem plan_loads (file : List UInt8) (top : ℕ) :
    Safe NotExecutable (plan file top) fun plan => Planned file top plan ∧
      (top = userStackGuard → ∃ map, memoryMap plan = .ok map) ∧
      ∃ image, (load file plan).run = some (.ok image) ∧ IsImage file plan.segments image := by
  refine (safe_plan file top).mono fun plan hplan => ⟨hplan, ?_, ?_⟩
  · rintro rfl
    exact memoryMap_ok hplan.toLoadable
  · obtain ⟨image, hrun, himage⟩ := (safe_load hplan.toLoadable).succeeds
    exact ⟨image, hrun, himage.isImage hplan.toLoadable⟩

open Fs (toLeBytes) in
/-- A program of one byte of code, with a page of zeros behind it. -/
def oneByte : List UInt8 :=
  magic ++ [2, 1, 1, 0] ++ toLeBytes 8 0 ++ toLeBytes 2 etExec ++ toLeBytes 2 emX86_64 ++ toLeBytes 4 1 ++
    toLeBytes 8 0x401078 ++ toLeBytes 8 headerSize ++ toLeBytes 14 0 ++ toLeBytes 2 programHeaderSize ++
    toLeBytes 2 1 ++ toLeBytes 6 0 ++
    toLeBytes 4 ptLoad ++ toLeBytes 4 5 ++ toLeBytes 8 0 ++ toLeBytes 8 0x401000 ++ toLeBytes 8 0 ++
    toLeBytes 8 121 ++ toLeBytes 8 0x1078 ++ toLeBytes 8 0 ++ [0xf4]

example : (plan oneByte userStackGuard).run = some (.ok ⟨0x401078, 0x401040, 1,
    [⟨0x401000, 0x403000, ⟨true, false, true⟩, 0x401000, 0, 121, 0x1078⟩]⟩) := by
  decide +kernel

end SaeOS.Exec
