import SaeOS.Errno
import SaeOS.Lib.Checked
import SaeOS.Lib.Text
import SaeOS.Mm.Vma

/-!
# Strings in user memory

`mm/uaccess.rs`: `read_cstr` copies a string from user memory piece by piece. A piece ends with its page, with
the buffer, or with the bytes that may still come, so it lies in one page and is read if that page is; the
string ends in the piece with its first zero byte, and nothing behind that piece is looked at.

The loop has a bound on its rounds; a subtraction that underflows or running out of rounds is `none`.
-/

namespace SaeOS.Uaccess

open Checked (subWord okOr)

open Text (fromUtf8)

open Vma (pageSize checkedAdd)

/-- First address above the user half. -/
def userTop : ℕ := 0x00007ffffffff000

/-- The size of `chunk`. -/
def chunkSize : ℕ := 256

/-- The memory of the current address space: the mapped pages and their bytes. -/
structure UserMemory where
  byte : ℕ → UInt8
  mapped : ℕ → Bool

/-- `address..address + length` must lie entirely in the user half. -/
def checkRange (address length : ℕ) : Except Errno Unit :=
  match checkedAdd address length with
  | none => .error .EFAULT
  | some stop => if stop > userTop then .error .EFAULT else .ok ()

namespace UserMemory

/-- The bytes from an address on. -/
def bytesAt (memory : UserMemory) (address length : ℕ) : List UInt8 :=
  (List.range length).map fun i => memory.byte (address + i)

/-- Fill a buffer; `EFAULT` if any byte is not readable. -/
def read (memory : UserMemory) (address length : ℕ) : Except Errno (List UInt8) := do
  checkRange address length
  if (List.range length).all fun i => memory.mapped ((address + i) / pageSize) then
    .ok (memory.bytesAt address length)
  else .error .EFAULT

/-- The loop of `read_cstr`. -/
def readCstrLoop (memory : UserMemory) (max : ℕ) : ℕ → List UInt8 → ℕ → Checked Errno Text
  | 0, _, _ => Checked.panics
  | rounds + 1, bytes, cursor => do
    let toPageEnd ← subWord pageSize (cursor % pageSize)
    -- `max.saturating_add(1) - bytes.len()`
    let budget ← subWord (min (max + 1) (2 ^ 64 - 1)) bytes.length
    let wanted := min (min toPageEnd chunkSize) budget
    let chunk ← ExceptT.mk (some (memory.read cursor wanted))
    if chunk.idxOf 0 < chunk.length then okOr .EINVAL (fromUtf8 (bytes ++ chunk.take (chunk.idxOf 0)))
    else
      let bytes := bytes ++ chunk
      if bytes.length > max then throw .ENAMETOOLONG
      else
        let cursor ← okOr .EFAULT (checkedAdd cursor wanted)
        readCstrLoop memory max rounds bytes cursor

/-- A NUL-terminated string of at most `max` bytes, excluding the NUL. -/
def readCstr (memory : UserMemory) (rounds address max : ℕ) : Option (Except Errno Text) :=
  (memory.readCstrLoop max rounds [] address).run

/-! ## What is there to read -/

/-- The bytes lie in mapped pages of the user half. -/
def Readable (memory : UserMemory) (address length : ℕ) : Prop :=
  ∀ i < length, address + i < userTop ∧ memory.mapped ((address + i) / pageSize) = true

def NonZero (memory : UserMemory) (address length : ℕ) : Prop :=
  ∀ i < length, memory.byte (address + i) ≠ 0

/-- The first zero byte is number `length`. -/
def StringAt (memory : UserMemory) (address length : ℕ) : Prop :=
  memory.NonZero address length ∧ memory.byte (address + length) = 0

/-- What reading a string gives: the text up to the first zero byte, if it comes in time and can be reached,
or an error that says which of this is not so. -/
structure Describes (memory : UserMemory) (address max : ℕ) (r : Except Errno Text) : Prop where
  string : ∀ length ≤ max, memory.StringAt address length → memory.Readable address (length + 1) →
    r = match fromUtf8 (memory.bytesAt address length) with
      | some text => .ok text
      | none => .error .EINVAL
  long : memory.NonZero address (max + 1) → memory.Readable address (max + 1) → r = .error .ENAMETOOLONG
  fault : (¬ ∃ length ≤ max, memory.StringAt address length ∧ memory.Readable address (length + 1)) →
    ¬ (memory.NonZero address (max + 1) ∧ memory.Readable address (max + 1)) → r = .error .EFAULT

variable {memory : UserMemory} {address length length' max : ℕ}

theorem StringAt.unique (h : memory.StringAt address length) (h' : memory.StringAt address length') :
    length = length' := by
  rcases lt_trichotomy length length' with hlt | heq | hgt
  · exact absurd h.2 (h'.1 length hlt)
  · exact heq
  · exact absurd h'.2 (h.1 length' hgt)

theorem Readable.mono (h : memory.Readable address length) (hle : length' ≤ length) :
    memory.Readable address length' := fun i hi => h i (hi.trans_le hle)

/-- The three outcomes exclude one another. -/
theorem describes_string (hle : length ≤ max) (hstring : memory.StringAt address length)
    (hreadable : memory.Readable address (length + 1)) :
    memory.Describes address max (match fromUtf8 (memory.bytesAt address length) with
      | some text => .ok text
      | none => .error .EINVAL) where
  string := fun length' _ hstring' _ => by rw [hstring.unique hstring']
  long := fun hnonzero _ => absurd hstring.2 (hnonzero length (Nat.lt_succ_of_le hle))
  fault := fun hnone _ => absurd ⟨length, hle, hstring, hreadable⟩ hnone

theorem describes_long (hnonzero : memory.NonZero address (max + 1))
    (hreadable : memory.Readable address (max + 1)) :
    memory.Describes address max (.error .ENAMETOOLONG) where
  string := fun length hle hstring _ => absurd hstring.2 (hnonzero length (Nat.lt_succ_of_le hle))
  long := fun _ _ => rfl
  fault := fun _ hnot => absurd ⟨hnonzero, hreadable⟩ hnot

/-- Where the bytes that are needed next cannot be read. -/
theorem describes_fault (hnonzero : memory.NonZero address length) (hle : length ≤ max)
    (hnot : ¬ memory.Readable address (length + 1)) : memory.Describes address max (.error .EFAULT) where
  string := fun length' _ hstring hreadable => by
    refine absurd (hreadable.mono (Nat.succ_le_succ ?_)) hnot
    by_contra hlt
    exact hnonzero length' (Nat.lt_of_not_le hlt) hstring.2
  long := fun _ hreadable => absurd (hreadable.mono (Nat.succ_le_succ hle)) hnot
  fault := fun _ _ => rfl

/-! ## A piece -/

/-- The bytes of a piece are in the page of its first byte. -/
theorem page_eq {cursor i : ℕ} (h : i < pageSize - cursor % pageSize) :
    (cursor + i) / pageSize = cursor / pageSize := by
  unfold pageSize at h ⊢
  omega

/-- A piece inside a page is read if its first byte is readable. -/
theorem read_of_readable {cursor wanted : ℕ} (hfits : wanted ≤ pageSize - cursor % pageSize)
    (hcursor : memory.Readable cursor 1) : memory.read cursor wanted = .ok (memory.bytesAt cursor wanted) ∧
      memory.Readable cursor wanted ∧ cursor + wanted ≤ userTop := by
  obtain ⟨hlt, hmapped⟩ := hcursor 0 Nat.one_pos
  rw [Nat.add_zero] at hlt hmapped
  -- the user half ends with a page
  have hend : cursor + wanted ≤ userTop := by
    unfold userTop at hlt ⊢
    unfold pageSize at hfits
    omega
  have hpages : ∀ i < wanted, memory.mapped ((cursor + i) / pageSize) = true := by
    intro i hi
    rw [page_eq (hi.trans_le hfits)]
    exact hmapped
  have hcheck : checkRange cursor wanted = .ok () := by
    have hword : cursor + wanted < Vma.addressLimit := hend.trans_lt (by decide)
    rw [checkRange, checkedAdd, if_pos hword]
    exact if_neg (Nat.not_lt.mpr hend)
  refine ⟨?_, fun i hi => ⟨by omega, hpages i hi⟩, hend⟩
  rw [read, hcheck]
  exact if_pos (List.all_eq_true.mpr fun i hi => hpages i (List.mem_range.mp hi))

/-- A piece whose first byte is not readable is not read. -/
theorem read_of_not_readable {cursor wanted : ℕ} (hpos : 0 < wanted) (hcursor : ¬ memory.Readable cursor 1) :
    memory.read cursor wanted = .error .EFAULT := by
  rw [read, checkRange]
  cases hsum : checkedAdd cursor wanted with
  | none => rfl
  | some stop =>
    dsimp only
    by_cases hstop : stop > userTop
    · rw [if_pos hstop]
      rfl
    rw [if_neg hstop]
    refine if_neg fun hall => hcursor ?_
    intro i hi
    obtain rfl : i = 0 := Nat.lt_one_iff.mp hi
    have hend : cursor + wanted = stop := by
      unfold checkedAdd at hsum
      split at hsum
      · exact Option.some.inj hsum
      · contradiction
    exact ⟨by omega, List.all_eq_true.mp hall 0 (List.mem_range.mpr hpos)⟩

theorem length_bytesAt (memory : UserMemory) (address length : ℕ) :
    (memory.bytesAt address length).length = length := by
  rw [bytesAt, List.length_map, List.length_range]

/-- Bytes that follow each other. -/
theorem bytesAt_add (memory : UserMemory) (address length length' : ℕ) :
    memory.bytesAt address (length + length') =
      memory.bytesAt address length ++ memory.bytesAt (address + length) length' := by
  simp only [bytesAt, List.range_add, List.map_append, List.map_map, Nat.add_assoc, Function.comp_def]

theorem take_bytesAt {n : ℕ} (h : n ≤ length) :
    (memory.bytesAt address length).take n = memory.bytesAt address n := by
  have hsplit := memory.bytesAt_add address n (length - n)
  rw [Nat.add_sub_cancel' h] at hsplit
  rw [hsplit, List.take_left' (length_bytesAt memory address n)]

/-- The first zero byte of a piece, or none. -/
theorem idxOf_cases (memory : UserMemory) (cursor wanted : ℕ) :
    (((memory.bytesAt cursor wanted).idxOf 0 < wanted) ∧
        memory.StringAt cursor ((memory.bytesAt cursor wanted).idxOf 0)) ∨
      (¬ (memory.bytesAt cursor wanted).idxOf 0 < wanted ∧ memory.NonZero cursor wanted) := by
  have hlength := length_bytesAt memory cursor wanted
  have hget (i : ℕ) (hi : i < (memory.bytesAt cursor wanted).length) :
      (memory.bytesAt cursor wanted)[i] = memory.byte (cursor + i) := by
    simp [bytesAt]
  by_cases hzero : (memory.bytesAt cursor wanted).idxOf 0 < wanted
  · refine .inl ⟨hzero, fun i hi hbyte => ?_, ?_⟩
    · -- no zero byte before the first one
      have hin : i < (memory.bytesAt cursor wanted).length := by omega
      have hbefore := List.not_of_lt_findIdx (p := (· == 0)) hi
      simp only [hget, beq_eq_false_iff_ne] at hbefore
      exact hbefore hbyte
    · have hin : (memory.bytesAt cursor wanted).idxOf 0 < (memory.bytesAt cursor wanted).length := by omega
      rw [← hget _ hin]
      exact List.getElem_idxOf hin
  · refine .inr ⟨hzero, fun i hi hbyte => hzero ?_⟩
    have hmem : (0 : UInt8) ∈ memory.bytesAt cursor wanted :=
      List.mem_map.mpr ⟨i, List.mem_range.mpr hi, hbyte⟩
    exact (List.idxOf_lt_length_iff.mpr hmem).trans_eq hlength

/-! ## The loop -/

theorem NonZero.add (h : memory.NonZero address length) (h' : memory.NonZero (address + length) length') :
    memory.NonZero address (length + length') := by
  intro i hi
  by_cases hlt : i < length
  · exact h i hlt
  · have hbyte := h' (i - length) (by omega)
    rwa [Nat.add_assoc, Nat.add_sub_cancel' (Nat.le_of_not_lt hlt)] at hbyte

theorem Readable.add (h : memory.Readable address length) (h' : memory.Readable (address + length) length') :
    memory.Readable address (length + length') := by
  intro i hi
  by_cases hlt : i < length
  · exact h i hlt
  · have hbyte := h' (i - length) (by omega)
    rwa [Nat.add_assoc, Nat.add_sub_cancel' (Nat.le_of_not_lt hlt)] at hbyte

/-- One round at byte `length`, all bytes before it read and not zero: it ends the call, or the piece it
reads has no zero byte either. -/
theorem readCstrLoop_succ (hreadable : memory.Readable address length)
    (hnonzero : memory.NonZero address length) (hle : length ≤ max) (rounds : ℕ) :
    (∃ r, memory.Describes address max r ∧
      (memory.readCstrLoop max (rounds + 1) (memory.bytesAt address length) (address + length)).run =
        some r) ∨
    ∃ wanted, 0 < wanted ∧ memory.Readable address (length + wanted) ∧
      memory.NonZero address (length + wanted) ∧ length + wanted ≤ max ∧
      address + (length + wanted) ≤ userTop ∧
      memory.readCstrLoop max (rounds + 1) (memory.bytesAt address length) (address + length) =
        memory.readCstrLoop max rounds (memory.bytesAt address (length + wanted))
          (address + (length + wanted)) := by
  -- the bytes read so far are in the user half, so there is budget left
  have hshort : length ≤ userTop := by
    cases length with
    | zero => exact Nat.zero_le _
    | succ length =>
      have hlast := (hreadable length (Nat.lt_succ_self length)).1
      omega
  have hbudget : length < min (max + 1) (2 ^ 64 - 1) := by
    unfold userTop at hshort
    omega
  have hpage : (address + length) % pageSize ≤ pageSize := (Nat.mod_lt _ (by decide)).le
  have hpos : 0 < pageSize - (address + length) % pageSize := Nat.sub_pos_of_lt (Nat.mod_lt _ (by decide))
  have htoPageEnd : subWord (ε := Errno) pageSize ((address + length) % pageSize) =
      pure (pageSize - (address + length) % pageSize) := if_pos hpage
  have hleft : subWord (ε := Errno) (min (max + 1) (2 ^ 64 - 1)) (memory.bytesAt address length).length =
      pure (min (max + 1) (2 ^ 64 - 1) - length) := by
    rw [length_bytesAt]
    exact if_pos hbudget.le
  rw [readCstrLoop, htoPageEnd, pure_bind, hleft, pure_bind]
  obtain ⟨wanted, hwanted⟩ : ∃ wanted, wanted = min (min (pageSize - (address + length) % pageSize) chunkSize)
      (min (max + 1) (2 ^ 64 - 1) - length) := ⟨_, rfl⟩
  have hsome : 0 < wanted ∧ wanted ≤ pageSize - (address + length) % pageSize ∧
      length + wanted ≤ max + 1 := by
    unfold chunkSize at hwanted
    omega
  obtain ⟨hwanted', hfits, hmax⟩ := hsome
  dsimp only
  rw [← hwanted]
  by_cases hcursor : memory.Readable (address + length) 1
  · obtain ⟨hread, hpiece, hend⟩ := read_of_readable hfits hcursor
    have hchunk : (ExceptT.mk (some (memory.read (address + length) wanted)) : Checked Errno (List UInt8)) =
        pure (memory.bytesAt (address + length) wanted) := by
      rw [hread]
      rfl
    rw [hchunk, pure_bind, length_bytesAt]
    rcases memory.idxOf_cases (address + length) wanted with ⟨hzero, hstring⟩ | ⟨hzero, hpiecezero⟩
    · -- the string ends in this piece
      left
      have hstring' : memory.StringAt address
          (length + (memory.bytesAt (address + length) wanted).idxOf 0) :=
        ⟨hnonzero.add hstring.1, (Nat.add_assoc address length _) ▸ hstring.2⟩
      have hreadable' := hreadable.add (hpiece.mono (Nat.succ_le_of_lt hzero))
      refine ⟨_, describes_string (by omega) hstring' hreadable', ?_⟩
      rw [if_pos hzero, take_bytesAt hzero.le, ← bytesAt_add]
      cases fromUtf8 (memory.bytesAt address
        (length + (memory.bytesAt (address + length) wanted).idxOf 0)) <;> rfl
    · have hnonzero' := hnonzero.add hpiecezero
      have hreadable' := hreadable.add hpiece
      rw [if_neg hzero, ← bytesAt_add, length_bytesAt]
      by_cases hlong : length + wanted > max
      · left
        have heq : length + wanted = max + 1 := by omega
        rw [if_pos hlong]
        exact ⟨_, describes_long (heq ▸ hnonzero') (heq ▸ hreadable'), rfl⟩
      · right
        have hadd : checkedAdd (address + length) wanted = some (address + length + wanted) :=
          if_pos (hend.trans_lt (by decide))
        refine ⟨wanted, hwanted', hreadable', hnonzero', by omega, by omega, ?_⟩
        rw [if_neg hlong, hadd, Nat.add_assoc]
        rfl
  · left
    refine ⟨.error .EFAULT, describes_fault hnonzero hle fun h => hcursor ?_, ?_⟩
    · intro i hi
      have hbyte := h (length + i) (by omega)
      rwa [← Nat.add_assoc] at hbyte
    · rw [read_of_not_readable hwanted' hcursor]
      rfl

theorem readCstrLoop_describes (hreadable : memory.Readable address length)
    (hnonzero : memory.NonZero address length) (hle : length ≤ max) {rounds : ℕ} (hrounds : 0 < rounds)
    (henough : userTop < rounds + (address + length)) :
    ∃ r, memory.Describes address max r ∧
      (memory.readCstrLoop max rounds (memory.bytesAt address length) (address + length)).run = some r := by
  -- every further round starts later in the user half
  induction rounds generalizing length with
  | zero => exact absurd hrounds (Nat.lt_irrefl 0)
  | succ rounds ih =>
    rcases readCstrLoop_succ hreadable hnonzero hle rounds with
      hends | ⟨wanted, hpos, hreadable', hnonzero', hle', hend, heq⟩
    · exact hends
    · rw [heq]
      exact ih hreadable' hnonzero' hle' (by omega) (by omega)

/-- **Strings are read up to their first zero byte.** With enough rounds the loop ends, for every memory,
address and maximum, and gives the text up to the first zero byte if it is among the first `max + 1` bytes
and the pages up to its own are readable, `EINVAL` if that is not UTF-8, `ENAMETOOLONG` if `max + 1` bytes
are readable and not zero, and `EFAULT` otherwise. -/
theorem readCstr_describes (memory : UserMemory) (address max : ℕ) :
    ∃ enough, ∀ rounds ≥ enough, ∃ r, memory.readCstr rounds address max = some r ∧
      memory.Describes address max r := by
  refine ⟨userTop + 1, fun rounds hrounds => ?_⟩
  have hreadable : memory.Readable address 0 := fun i hi => absurd hi (Nat.not_lt_zero i)
  have hnonzero : memory.NonZero address 0 := fun i hi => absurd hi (Nat.not_lt_zero i)
  have henough : userTop < rounds + (address + 0) := by omega
  obtain ⟨r, hdescribes, hrun⟩ :=
    readCstrLoop_describes hreadable hnonzero (Nat.zero_le max) (by omega) henough
  exact ⟨r, hrun, hdescribes⟩

/-- A string that ends right before a page that is not mapped. -/
theorem readCstr_pageEnd :
    ∃ enough, ∀ rounds ≥ enough,
      readCstr ⟨fun address => if address = 8191 then 0 else 97, fun page => page == 1⟩ rounds 8190
        (2 ^ 64 - 1) = some (.ok ['a']) := by
  obtain ⟨enough, h⟩ := readCstr_describes
    ⟨fun address => if address = 8191 then 0 else 97, fun page => page == 1⟩ 8190 (2 ^ 64 - 1)
  refine ⟨enough, fun rounds hrounds => ?_⟩
  obtain ⟨r, hrun, hdescribes⟩ := h rounds hrounds
  have hstring := hdescribes.string 1 (by decide)
    ⟨fun i hi => by obtain rfl : i = 0 := Nat.lt_one_iff.mp hi; decide, by decide⟩
    (fun i hi => by
      have hcases : i = 0 ∨ i = 1 := by omega
      rcases hcases with rfl | rfl <;> decide)
  have htext : fromUtf8 (bytesAt ⟨fun address => if address = 8191 then 0 else 97, fun page => page == 1⟩
      8190 1) = some ['a'] := Text.fromUtf8_asBytes ['a']
  rw [htext] at hstring
  rw [hrun, hstring]

end UserMemory

end SaeOS.Uaccess
