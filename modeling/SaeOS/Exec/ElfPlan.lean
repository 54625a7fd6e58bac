import SaeOS.Exec.Elf
import SaeOS.Mm.VmaSemantics

/-!
# What a load plan promises

`plan` never panics, and fails only with `ENOEXEC`. The segments of a plan lie page-aligned and apart below
the top of user memory, take their bytes from inside the file, and one that is executable contains the
entry point (`safe_plan`).
-/

namespace SaeOS.Exec.Elf

open Checked
open Vma (pageSize addressLimit checkedAdd pageUp)

variable {file : List UInt8} {userTop : ℕ} {segments : List Segment}

/-! ## Plans -/

namespace Segment

/-- A segment that can be loaded: whole pages around its bytes, which the file has. -/
structure Sound (file : List UInt8) (userTop : ℕ) (s : Segment) : Prop where
  start_aligned : pageSize ∣ s.start
  stop_aligned : pageSize ∣ s.stop
  above : pageSize ≤ s.start
  below : s.stop ≤ userTop
  stop_lt : s.stop < 2 ^ 64
  not_wx : ¬(s.flags.write = true ∧ s.flags.execute = true)
  inFile : s.fileOffset + s.fileSize ≤ file.length
  offset_lt : s.fileOffset + s.fileSize < 2 ^ 64
  fits : s.fileSize ≤ s.memSize
  nonempty : 0 < s.memSize
  start_le : s.start ≤ s.vaddr
  le_stop : s.vaddr + s.memSize ≤ s.stop

/-- No page is in both segments. -/
def Apart (a b : Segment) : Prop :=
  a.stop ≤ b.start ∨ b.stop ≤ a.start

instance : Std.Symm Apart :=
  ⟨fun _ _ => Or.symm⟩

/-- The address is on one of the segment's pages. -/
def Has (s : Segment) (address : ℕ) : Prop :=
  s.start ≤ address ∧ address < s.stop

instance (s : Segment) (address : ℕ) : Decidable (s.Has address) :=
  inferInstanceAs (Decidable (_ ∧ _))

end Segment

/-- Segments that can be loaded together. -/
structure Loadable (file : List UInt8) (userTop : ℕ) (segments : List Segment) : Prop where
  sound : ∀ s ∈ segments, s.Sound file userTop
  apart : segments.Pairwise Segment.Apart

/-- Segments that share an address are the same. -/
theorem Loadable.eq_of_has (h : Loadable file userTop segments) {a b : Segment} (ha : a ∈ segments)
    (hb : b ∈ segments) {address : ℕ} (hasA : a.Has address) (hasB : b.Has address) : a = b := by
  by_contra hne
  have hapart : a.Apart b := h.apart.forall ha hb hne
  obtain ⟨hstartA, hstopA⟩ := hasA
  obtain ⟨hstartB, hstopB⟩ := hasB
  rcases hapart with hle | hle <;> omega

/-- What a plan promises. -/
structure Planned (file : List UInt8) (userTop : ℕ) (plan : LoadPlan) : Prop
    extends Loadable file userTop plan.segments where
  entry : ∃ s ∈ plan.segments, s.flags.execute = true ∧ s.vaddr ≤ plan.entry ∧
    plan.entry < s.vaddr + s.memSize

/-- The only error of `plan`. -/
def NotExecutable (e : Errno) : Prop :=
  e = .ENOEXEC

theorem notExecutable : NotExecutable .ENOEXEC := rfl

/-! ## Reading the file -/

theorem getRange_eq_some {start stop : ℕ} {bytes : List UInt8} (h : getRange file start stop = some bytes) :
    start ≤ stop ∧ stop ≤ file.length ∧ bytes.length = stop - start := by
  unfold getRange at h
  split at h
  · rename_i hrange
    obtain rfl := Option.some.inj h
    refine ⟨hrange.1, hrange.2, ?_⟩
    rw [List.length_take, List.length_drop]
    omega
  · contradiction

theorem safe_wordAt {width offset : ℕ} (h : offset + width < 2 ^ 64) :
    Safe NotExecutable (wordAt width file offset) fun _ => True :=
  (Safe.addWord h).bind fun _ _ => (Safe.okOr notExecutable _).bind fun _ _ => .pure trivial

/-! ## One segment -/

theorem checkedAdd_eq_some {a b sum : ℕ} (h : checkedAdd a b = some sum) :
    a + b < 2 ^ 64 ∧ sum = a + b := by
  unfold checkedAdd at h
  split at h
  · rename_i hlt
    exact ⟨hlt, (Option.some.inj h).symm⟩
  · contradiction

theorem pageUp_lt {a up : ℕ} (h : pageUp a = some up) : up < 2 ^ 64 := by
  simp only [pageUp] at h
  split at h
  · rename_i hlt
    obtain rfl := Option.some.inj h
    exact hlt
  · contradiction

/-- A segment that passes the checks is sound, and apart from those before it. -/
theorem safe_loadSegment {flags offset vaddr fileSize memSize : ℕ} (hmem : memSize ≠ 0) :
    Safe NotExecutable (loadSegment file userTop segments flags offset vaddr fileSize memSize)
      fun s => s.Sound file userTop ∧ ∀ other ∈ segments, other.Apart s := by
  unfold loadSegment
  refine (Safe.okOr notExecutable _).bind fun fileEnd hfileEnd => ?_
  refine (Safe.okOr notExecutable _).bind fun memEnd hmemEnd => ?_
  refine (Safe.rejectIf notExecutable _).bind fun _ hgood => ?_
  refine (Safe.okOr notExecutable _).bind fun stop hstop => ?_
  refine (Safe.rejectIf notExecutable _).bind fun _ hplace => .pure ?_
  obtain ⟨hoffset, rfl⟩ := checkedAdd_eq_some hfileEnd
  obtain ⟨-, rfl⟩ := checkedAdd_eq_some hmemEnd
  obtain ⟨haligned, hle, -⟩ := Vma.MemoryMap.pageUp_eq_some hstop
  obtain ⟨hfits, hinFile, -, hflags, hvaddr⟩ : fileSize ≤ memSize ∧ offset + fileSize ≤ file.length ∧
      vaddr % pageSize = offset % pageSize ∧
      ((SegmentFlags.ofBits flags).write && (SegmentFlags.ofBits flags).execute) ≠ true ∧
      pageSize ≤ vaddr := by
    simpa only [not_or, not_lt, gt_iff_lt, ne_eq, not_not] using hgood
  obtain ⟨hbelow, hapart⟩ := not_or.mp hplace
  have hstart : vaddr / pageSize * pageSize ≤ vaddr := Nat.div_mul_le_self _ _
  refine ⟨⟨Nat.dvd_mul_left _ _, haligned, ?_, not_lt.mp hbelow, pageUp_lt hstop, ?_, hinFile, hoffset,
    hfits, Nat.pos_of_ne_zero hmem, hstart, hle⟩, ?_⟩
  · -- the page of an address from the second page on is not the first one
    exact Nat.le_mul_of_pos_left _ (Nat.div_pos hvaddr (by decide))
  · rintro ⟨hwrite, hexecute⟩
    exact hflags (Bool.and_eq_true_iff.mpr ⟨hwrite, hexecute⟩)
  · intro other hother
    by_contra hmeet
    refine hapart (List.any_eq_true.mpr ⟨other, hother, ?_⟩)
    obtain ⟨h, h'⟩ := not_or.mp hmeet
    rw [Bool.and_eq_true, decide_eq_true_eq, decide_eq_true_eq]
    exact ⟨not_le.mp h, not_le.mp h'⟩

/-! ## The program headers -/

/-- A round of the loop inside the file keeps the segments loadable. -/
theorem safe_programHeader {tableStart index : ℕ} {table : Table}
    (hindex : tableStart + index * programHeaderSize + programHeaderSize < 2 ^ 64)
    (h : Loadable file userTop table.segments) :
    Safe NotExecutable (programHeader file userTop tableStart table index)
      fun table' => Loadable file userTop table'.segments := by
  have hsize : programHeaderSize = 56 := rfl
  unfold programHeader
  refine (Safe.mulWord (by omega)).bind fun _ hproduct => ?_
  subst hproduct
  refine (Safe.addWord (by omega)).bind fun base hbase => ?_
  refine (safe_wordAt (by omega)).bind fun kind _ => ?_
  refine (Safe.addWord (by omega)).bind fun _ hat => (safe_wordAt (by omega)).bind fun flags _ => ?_
  refine (Safe.addWord (by omega)).bind fun _ hat => (safe_wordAt (by omega)).bind fun offset _ => ?_
  refine (Safe.addWord (by omega)).bind fun _ hat => (safe_wordAt (by omega)).bind fun vaddr _ => ?_
  refine (Safe.addWord (by omega)).bind fun _ hat => (safe_wordAt (by omega)).bind fun fileSize _ => ?_
  refine (Safe.addWord (by omega)).bind fun _ hat => (safe_wordAt (by omega)).bind fun memSize _ => ?_
  split
  · exact .throw notExecutable
  split
  · exact .pure h
  split
  · exact .pure h
  rename_i hload
  refine (safe_loadSegment (not_or.mp hload).2).bind fun segment hsegment => .pure ⟨?_, ?_⟩
  · intro s hs
    rcases List.mem_append.mp hs with hs | hs
    · exact h.sound s hs
    · rw [List.mem_singleton.mp hs]
      exact hsegment.1
  · refine List.pairwise_append.mpr ⟨h.apart, List.pairwise_singleton _ _, fun other hother s hs => ?_⟩
    rw [List.mem_singleton.mp hs]
    exact hsegment.2 other hother

/-! ## After the loop -/

theorem safe_executableIn {address : ℕ} {s : Segment} (h : s.Sound file userTop) :
    Safe NotExecutable (executableIn address s) fun found => found = true →
      s.flags.execute = true ∧ s.vaddr ≤ address ∧ address < s.vaddr + s.memSize := by
  have hstop := h.stop_lt
  have hle := h.le_stop
  unfold executableIn
  split
  · rename_i hfrom
    rw [Bool.and_eq_true, decide_eq_true_eq] at hfrom
    refine (Safe.addWord (by omega)).bind fun stop heq => .pure fun hlt => ?_
    exact ⟨hfrom.1, hfrom.2, heq ▸ of_decide_eq_true hlt⟩
  · exact .pure (by simp)

theorem safe_mapsHeaders {phoff phnum : ℕ} {s : Segment} (h : s.Sound file userTop)
    (hmul : phnum * programHeaderSize < 2 ^ 64) (hadd : phoff + phnum * programHeaderSize < 2 ^ 64) :
    Safe NotExecutable (mapsHeaders phoff phnum s) fun found => found = true →
      s.fileOffset ≤ phoff ∧ phoff ≤ s.fileOffset + s.fileSize := by
  unfold mapsHeaders
  split
  · rename_i hfrom
    refine (Safe.mulWord hmul).bind fun _ heq => ?_
    subst heq
    refine (Safe.addWord hadd).bind fun tableEnd htable => ?_
    refine (Safe.addWord h.offset_lt).bind fun fileEnd hfile => .pure fun hle => ⟨hfrom, ?_⟩
    have hle := of_decide_eq_true hle
    omega
  · exact .pure (by simp)

theorem safe_headersVaddr {phoff phnum : ℕ} {table : Table} (h : Loadable file userTop table.segments)
    (hmul : phnum * programHeaderSize < 2 ^ 64) (hadd : phoff + phnum * programHeaderSize < 2 ^ 64) :
    Safe NotExecutable (headersVaddr phoff phnum table) fun _ => True := by
  unfold headersVaddr
  split
  · exact .pure trivial
  refine (Safe.findM? fun s hs => safe_mapsHeaders (h.sound s hs) hmul hadd).bind fun found hfound => ?_
  cases found with
  | none => exact .pure trivial
  | some s =>
    -- the headers start within the segment's file bytes, so their address is within the segment
    obtain ⟨hs, hfrom, hto⟩ := hfound s rfl
    have hfits := (h.sound s hs).fits
    have hle := (h.sound s hs).le_stop
    have hlt := (h.sound s hs).stop_lt
    refine (Safe.subWord hfrom).bind fun _ heq => (Safe.addWord ?_).mono fun _ _ => trivial
    omega

/-- `plan` neither reads out of bounds nor overflows, and its plans are as promised. -/
theorem safe_plan (file : List UInt8) (userTop : ℕ) :
    Safe NotExecutable (plan file userTop) (Planned file userTop) := by
  unfold plan
  refine (Safe.okOr notExecutable _).bind fun header hheader => ?_
  have hlength : header.length = 64 := (getRange_eq_some hheader).2.2
  refine (Safe.slice (by omega) (by omega)).bind fun _ _ => ?_
  refine (Safe.index (by omega)).bind fun _ _ => ?_
  refine (Safe.index (by omega)).bind fun _ _ => ?_
  refine (Safe.index (by omega)).bind fun _ _ => ?_
  refine (Safe.rejectIf notExecutable _).bind fun _ _ => ?_
  refine (safe_wordAt (by decide)).bind fun _ _ => ?_
  refine (safe_wordAt (by decide)).bind fun _ _ => ?_
  refine (safe_wordAt (by decide)).bind fun _ _ => ?_
  refine (Safe.rejectIf notExecutable _).bind fun _ _ => ?_
  refine (safe_wordAt (by decide)).bind fun entry _ => ?_
  refine (safe_wordAt (by decide)).bind fun phoff _ => ?_
  refine (safe_wordAt (by decide)).bind fun phentsize _ => ?_
  refine (safe_wordAt (by decide)).bind fun phnum _ => ?_
  refine (Safe.rejectIf notExecutable _).bind fun _ hcount => ?_
  have hsize : programHeaderSize = 56 := rfl
  have hmax : phnum ≤ 64 := not_lt.mp fun h => hcount (.inr (.inr h))
  have hmul : phnum * programHeaderSize < 2 ^ 64 := by
    rw [hsize]
    omega
  refine (Safe.mulWord hmul).bind fun _ heq => ?_
  subst heq
  refine (Safe.okOr notExecutable _).bind fun tableEnd htable => ?_
  obtain ⟨hadd, -⟩ := checkedAdd_eq_some htable
  refine (Safe.rejectIf notExecutable _).bind fun _ _ => ?_
  have hloop : Safe NotExecutable ((List.range phnum).foldlM (programHeader file userTop phoff) ⟨[], none⟩)
      fun table => Loadable file userTop table.segments := by
    refine Safe.foldlM ⟨by simp, List.Pairwise.nil⟩ fun table index hindex htable => ?_
    have hlast : (index + 1) * programHeaderSize ≤ phnum * programHeaderSize :=
      Nat.mul_le_mul_right _ (List.mem_range.mp hindex)
    rw [Nat.succ_mul] at hlast
    exact safe_programHeader (by omega) htable
  refine hloop.bind fun table hsegments => ?_
  refine (Safe.rejectIf notExecutable _).bind fun _ _ => ?_
  refine (Safe.anyM fun s hs => safe_executableIn (hsegments.sound s hs)).bind fun found hfound => ?_
  refine (Safe.rejectIf notExecutable _).bind fun _ hexecutable => ?_
  refine (safe_headersVaddr hsegments hmul hadd).bind fun _ _ => .pure ⟨hsegments, ?_⟩
  exact hfound (by simpa using hexecutable)

end SaeOS.Exec.Elf
