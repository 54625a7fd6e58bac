import SaeOS.Lib.Checked
import SaeOS.Libsaeos.Fs

/-!
# WAV files

`coreutils/src/wav.rs`: the chunks of a file are walked to its `data` chunk with every index and
slice checked. What the walk finds depends on the bytes that are left alone (`walk`), so that it is
the same behind other chunks, and in every longer file.
-/

namespace SaeOS.Wav

open Checked (index slice okOr rejectIf)

open Libsaeos (fromLeBytes)

open Fs (toLeBytes)

/-- `&[u8]`, of at most `isize::MAX` bytes. -/
structure Slice where
  bytes : List UInt8
  lt : bytes.length < 2 ^ 63

inductive WavError where
  /-- Not a RIFF/WAVE file. -/
  | notWave
  /-- A chunk header or the `fmt ` chunk is cut short. -/
  | truncated
  | noFormat
  | noData
  | unsupported (what : String)
deriving DecidableEq

structure Format where
  rate : ℕ
  channels : ℕ
  bits : ℕ
deriving DecidableEq

structure Header extends Format where
  /-- Byte offset of the first sample in the file. -/
  dataOffset : ℕ
  /-- The `data` chunk's size as recorded (may exceed the file). -/
  dataLength : ℕ
deriving DecidableEq

structure Wav extends Format where
  data : List UInt8
deriving DecidableEq

/-- `saturating_add` of 64-bit words. -/
def saturatingAdd (a b : ℕ) : ℕ :=
  min (a + b) (2 ^ 64 - 1)

def Format.frameBytes (f : Format) : ℕ :=
  f.channels * (f.bits / 8)

/-- The bytes of samples to play in a file of `fileSize` bytes. -/
def Header.playable (header : Header) (fileSize : ℕ) : Checked WavError ℕ :=
  let length := min header.dataLength (fileSize - header.dataOffset)
  if header.frameBytes = 0 then Checked.panics else pure (length - length % header.frameBytes)

def u16At (bytes : List UInt8) (offset : ℕ) : Checked WavError ℕ := do
  let low ← index bytes offset
  let high ← index bytes (offset + 1)
  return fromLeBytes [low, high]

def u32At (bytes : List UInt8) (offset : ℕ) : Checked WavError ℕ := do
  let word ← slice bytes offset (offset + 4)
  return fromLeBytes word

def riff : List UInt8 := [0x52, 0x49, 0x46, 0x46]
def wave : List UInt8 := [0x57, 0x41, 0x56, 0x45]
def fmtId : List UInt8 := [0x66, 0x6d, 0x74, 0x20]
def dataId : List UInt8 := [0x64, 0x61, 0x74, 0x61]

/-- What is played. -/
def checkFormat (tag channels rate bits : ℕ) : Except WavError Format :=
  if tag ≠ 1 then .error (.unsupported "not plain PCM")
  else if ¬ (1 ≤ channels ∧ channels ≤ 2) then .error (.unsupported "only mono and stereo")
  else if bits ≠ 8 ∧ bits ≠ 16 then .error (.unsupported "only 8 and 16-bit samples")
  else if rate = 0 then .error (.unsupported "a rate of 0")
  else .ok ⟨rate, channels, bits⟩

/-- The `fmt ` chunk whose body starts at an offset. -/
def readFormat (bytes : List UInt8) (body size : ℕ) : Checked WavError Format := do
  rejectIf .truncated (size < 16 ∨ bytes.length - body < 16)
  let tag ← u16At bytes body
  let channels ← u16At bytes (body + 2)
  let rate ← u32At bytes (body + 4)
  let bits ← u16At bytes (body + 14)
  ExceptT.mk (some (checkFormat tag channels rate bits))

/-- Where the next chunk is: chunks are padded to an even size. -/
def nextOffset (body size : ℕ) : ℕ :=
  saturatingAdd (saturatingAdd body size) (size % 2)

theorem lt_nextOffset {offset : ℕ} (h : offset < 2 ^ 63) (size : ℕ) :
    offset < nextOffset (offset + 8) size := by
  unfold nextOffset saturatingAdd
  omega

/-- The loop over the chunks. -/
def parseChunks (s : Slice) (offset : ℕ) (format : Option Format) : Checked WavError Header :=
  if _ : offset < s.bytes.length then do
    rejectIf .truncated (s.bytes.length - offset < 8)
    let id ← slice s.bytes offset (offset + 4)
    let size ← u32At s.bytes (offset + 4)
    if id = fmtId then do
      let format ← readFormat s.bytes (offset + 8) size
      parseChunks s (nextOffset (offset + 8) size) (some format)
    else if id = dataId then do
      let format ← okOr .noFormat format
      return ⟨format, offset + 8, size⟩
    else parseChunks s (nextOffset (offset + 8) size) format
  else throw (if format.isSome then .noData else .noFormat)
termination_by s.bytes.length - offset
decreasing_by
  all_goals
    have hbound := s.lt
    have hnext := lt_nextOffset (show offset < 2 ^ 63 by omega) size
    omega

/-- `&bytes[..4] != b"RIFF" || &bytes[8..12] != b"WAVE"`, behind the check of the length. -/
def parseHeader (s : Slice) : Checked WavError Header := do
  rejectIf .notWave (s.bytes.length < 12)
  let container ← slice s.bytes 0 4
  rejectIf .notWave (container ≠ riff)
  let kind ← slice s.bytes 8 12
  rejectIf .notWave (kind ≠ wave)
  parseChunks s 12 none

/-- A whole file in memory. -/
def parse (s : Slice) : Checked WavError Wav := do
  let header ← parseHeader s
  let length ← header.playable s.bytes.length
  let data ← slice s.bytes header.dataOffset (header.dataOffset + length)
  return ⟨header.toFormat, data⟩

/-! ## The bytes that are left -/

/-- The number in the bytes at an offset. -/
def leAt (bytes : List UInt8) (offset width : ℕ) : ℕ :=
  fromLeBytes ((bytes.drop offset).take width)

def formatOf (body : List UInt8) : Except WavError Format :=
  checkFormat (leAt body 0 2) (leAt body 2 2) (leAt body 4 4) (leAt body 14 2)

/-- The format after the body of a `fmt ` chunk of a size. -/
def chunkFormat (body : List UInt8) (size : ℕ) : Except WavError Format :=
  if size < 16 ∨ body.length < 16 then .error .truncated else formatOf body

/-- The walk over the bytes that are left, the first of which has the offset in the file. -/
def walk (offset : ℕ) (format : Option Format) (bytes : List UInt8) : Except WavError Header :=
  if _ : bytes = [] then .error (if format.isSome then .noData else .noFormat)
  else if bytes.length < 8 then .error .truncated
  else
    let id := bytes.take 4
    let size := leAt bytes 4 4
    let padded := 8 + size + size % 2
    if id = fmtId then
      (chunkFormat (bytes.drop 8) size).bind fun format => walk (offset + padded) (some format)
        (bytes.drop padded)
    else if id = dataId then
      match format with
      | none => .error .noFormat
      | some format => .ok ⟨format, offset + 8, size⟩
    else walk (offset + padded) format (bytes.drop padded)
termination_by bytes.length
decreasing_by
  all_goals
    have hpos := List.length_pos_iff.mpr ‹_›
    rw [List.length_drop]
    omega

variable {bytes rest : List UInt8} {offset body size : ℕ} {format : Option Format} {s : Slice}

theorem leAt_lt (bytes : List UInt8) (offset width : ℕ) :
    leAt bytes offset width < 2 ^ (8 * width) := by
  have hbytes (bytes : List UInt8) : fromLeBytes bytes < 2 ^ (8 * bytes.length) := by
    induction bytes with
    | nil => exact Nat.one_pos
    | cons byte bytes ih =>
      have hbyte := byte.toNat_lt
      rw [fromLeBytes, List.length_cons, Nat.mul_succ, Nat.pow_add]
      omega
  exact (hbytes _).trans_le (Nat.pow_le_pow_right (by decide)
    (Nat.mul_le_mul_left 8 (List.length_take_le width _)))

theorem leAt_drop (bytes : List UInt8) (start offset width : ℕ) :
    leAt (bytes.drop start) offset width = leAt bytes (start + offset) width := by
  rw [leAt, List.drop_drop, leAt]

/-- What is read lies in the first bytes, if there are so many. -/
theorem leAt_append {width : ℕ} (h : offset + width ≤ bytes.length) (rest : List UInt8) :
    leAt (bytes ++ rest) offset width = leAt bytes offset width := by
  rw [leAt, List.drop_append_of_le_length (by omega), List.take_append_of_le_length, leAt]
  rw [List.length_drop]
  omega

theorem u16At_eq (h : offset + 2 ≤ bytes.length) :
    u16At bytes offset = pure (leAt bytes offset 2) := by
  have hlow : bytes[offset]? = some bytes[offset] := List.getElem?_eq_getElem (by omega)
  have hhigh : bytes[offset + 1]? = some bytes[offset + 1] := List.getElem?_eq_getElem (by omega)
  have htake : (bytes.drop offset).take 2 = [bytes[offset], bytes[offset + 1]] := by
    rw [List.drop_eq_getElem_cons (by omega), List.drop_eq_getElem_cons (by omega)]
    rfl
  rw [u16At, index, index, hlow, hhigh, leAt, htake]
  rfl

theorem slice_eq {width : ℕ} (h : offset + width ≤ bytes.length) :
    (slice bytes offset (offset + width) : Checked WavError (List UInt8)) =
      pure ((bytes.drop offset).take width) := by
  rw [slice, if_pos ⟨by omega, h⟩, Nat.add_sub_cancel_left]

theorem u32At_eq (h : offset + 4 ≤ bytes.length) :
    u32At bytes offset = pure (leAt bytes offset 4) := by
  rw [u32At, slice_eq h]
  rfl

/-- The format is read from the bytes behind the chunk's header. -/
theorem readFormat_eq (bytes : List UInt8) (body size : ℕ) :
    readFormat bytes body size = ExceptT.mk (some (chunkFormat (bytes.drop body) size)) := by
  rw [readFormat, chunkFormat, List.length_drop]
  by_cases hshort : size < 16 ∨ bytes.length - body < 16
  · rw [rejectIf, if_pos hshort, if_pos hshort]
    rfl
  · rw [rejectIf, if_neg hshort, if_neg hshort, u16At_eq (by omega), u16At_eq (by omega),
      u32At_eq (by omega),
      u16At_eq (by omega), formatOf, leAt_drop, leAt_drop, leAt_drop, leAt_drop]
    rfl

/-- **The loop over the chunks is the walk** over the bytes from its offset. -/
theorem parseChunks_eq (s : Slice) (offset : ℕ) (format : Option Format) :
    parseChunks s offset format = ExceptT.mk (some (walk offset format (s.bytes.drop offset))) := by
  have hbound := s.lt
  -- induction on the bytes that are left
  induction hleft : s.bytes.length - offset using Nat.strong_induction_on generalizing
    offset format with
  | h left ih =>
    unfold parseChunks walk
    by_cases hend : offset < s.bytes.length
    · have hne : s.bytes.drop offset ≠ [] := fun h => absurd (List.drop_eq_nil_iff.mp h) (by omega)
      rw [dif_pos hend, dif_neg hne, List.length_drop]
      by_cases hshort : s.bytes.length - offset < 8
      · rw [rejectIf, if_pos hshort, if_pos hshort]
        rfl
      · have hsize := leAt_lt s.bytes (offset + 4) 4
        have hnext : nextOffset (offset + 8) (leAt s.bytes (offset + 4) 4) =
            offset + (8 + leAt s.bytes (offset + 4) 4 + leAt s.bytes (offset + 4) 4 % 2) := by
          unfold nextOffset saturatingAdd
          omega
        have hih (format : Option Format) := ih _ (show s.bytes.length - nextOffset (offset + 8)
          (leAt s.bytes (offset + 4) 4) < left by omega) _ format rfl
        rw [rejectIf, if_neg hshort, if_neg hshort, slice_eq (by omega), u32At_eq (by omega)]
        dsimp only
        rw [leAt_drop, List.drop_drop, List.drop_drop, pure_bind, pure_bind, pure_bind]
        by_cases hfmt : (s.bytes.drop offset).take 4 = fmtId
        · rw [if_pos hfmt, if_pos hfmt, readFormat_eq]
          cases chunkFormat (s.bytes.drop (offset + 8)) (leAt s.bytes (offset + 4) 4) with
          | error error => rfl
          | ok format =>
            rw [← hnext]
            exact hih (some format)
        · rw [if_neg hfmt, if_neg hfmt]
          by_cases hdata : (s.bytes.drop offset).take 4 = dataId
          · rw [if_pos hdata, if_pos hdata]
            cases format with
            | none => rfl
            | some format => rfl
          · rw [if_neg hdata, if_neg hdata, ← hnext]
            exact hih format
    · have hnil : s.bytes.drop offset = [] := List.drop_eq_nil_of_le (by omega)
      rw [dif_neg hend, dif_pos hnil]
      rfl

/-! ## Chunks -/

/-- A chunk of the file with its padding. -/
structure Chunk where
  id : List UInt8
  body : List UInt8
  padding : List UInt8
  id_length : id.length = 4
  body_lt : body.length < 2 ^ 32
  padding_length : padding.length = body.length % 2

def Chunk.encode (c : Chunk) : List UInt8 :=
  c.id ++ (toLeBytes 4 c.body.length ++ (c.body ++ c.padding))

theorem Chunk.length_encode (c : Chunk) :
    c.encode.length = 8 + c.body.length + c.body.length % 2 := by
  rw [encode, List.length_append, List.length_append, List.length_append, c.id_length,
    Libsaeos.length_toLeBytes,
    c.padding_length]
  omega

/-- Nothing behind the body matters for the format. -/
theorem formatOf_append (h : 16 ≤ bytes.length) (rest : List UInt8) :
    formatOf (bytes ++ rest) = formatOf bytes := by
  rw [formatOf, leAt_append (by omega), leAt_append (by omega), leAt_append (by omega),
    leAt_append (by omega),
    formatOf]

theorem chunkFormat_append (bytes rest : List UInt8) :
    chunkFormat (bytes ++ rest) bytes.length = chunkFormat bytes bytes.length := by
  unfold chunkFormat
  rw [List.length_append]
  by_cases hshort : bytes.length < 16
  · rw [if_pos (.inl hshort), if_pos (.inl hshort)]
  · rw [if_neg (by omega), if_neg (by omega), formatOf_append (by omega)]

/-- The walk over a chunk that is not the data. -/
theorem walk_chunk (c : Chunk) (hdata : c.id ≠ dataId) (offset : ℕ) (format : Option Format)
    (rest : List UInt8) :
    walk offset format (c.encode ++ rest) =
      if c.id = fmtId then
        (chunkFormat c.body c.body.length).bind fun format =>
          walk (offset + c.encode.length) (some format) rest
      else walk (offset + c.encode.length) format rest := by
  have hlength := c.length_encode
  have hid : (c.encode ++ rest).take 4 = c.id := by
    rw [Chunk.encode, List.append_assoc, List.take_left' c.id_length]
  have hrest : c.encode ++ rest =
    (c.id ++ toLeBytes 4 c.body.length) ++ (c.body ++ (c.padding ++ rest)) := by
    simp only [Chunk.encode, List.append_assoc]
  have hsize : leAt (c.encode ++ rest) 4 4 = c.body.length := by
    rw [hrest, List.append_assoc, leAt, List.drop_left' c.id_length,
      List.take_left' (Libsaeos.length_toLeBytes 4 _), Libsaeos.fromLeBytes_toLeBytes,
      Nat.mod_eq_of_lt c.body_lt]
  have hbody : (c.encode ++ rest).drop 8 = c.body ++ (c.padding ++ rest) := by
    rw [hrest, List.drop_left']
    rw [List.length_append, c.id_length, Libsaeos.length_toLeBytes]
  have hdrop : (c.encode ++ rest).drop (8 + c.body.length + c.body.length % 2) = rest :=
    List.drop_left' hlength
  have hne : c.encode ++ rest ≠ [] := by
    refine List.ne_nil_of_length_pos ?_
    rw [List.length_append]
    omega
  have hlong : ¬ (c.encode ++ rest).length < 8 := by
    rw [List.length_append]
    omega
  rw [walk, dif_neg hne, if_neg hlong]
  dsimp only
  rw [hid, hsize, hbody, hdrop, if_neg hdata, hlength, chunkFormat_append]

theorem walk_nil (offset : ℕ) (format : Option Format) :
    walk offset format [] = .error (if format.isSome then .noData else .noFormat) := by
  rw [walk, dif_pos rfl]

theorem walk_short (hne : bytes ≠ []) (h : bytes.length < 8) :
    walk offset format bytes = .error .truncated := by
  rw [walk, dif_neg hne, if_pos h]

/-- A whole header. -/
theorem walk_header (h : 8 ≤ bytes.length) :
    walk offset format bytes =
      if bytes.take 4 = fmtId then
        (chunkFormat (bytes.drop 8) (leAt bytes 4 4)).bind fun format =>
          walk (offset + (8 + leAt bytes 4 4 + leAt bytes 4 4 % 2)) (some format)
            (bytes.drop (8 + leAt bytes 4 4 + leAt bytes 4 4 % 2))
      else if bytes.take 4 = dataId then
        match format with
        | none => .error .noFormat
        | some format => .ok ⟨format, offset + 8, leAt bytes 4 4⟩
      else walk (offset + (8 + leAt bytes 4 4 + leAt bytes 4 4 % 2)) format
        (bytes.drop (8 + leAt bytes 4 4 + leAt bytes 4 4 % 2)) := by
  have hne : bytes ≠ [] := List.ne_nil_of_length_pos (by omega)
  conv_lhs => rw [walk, dif_neg hne, if_neg (by omega)]

/-- What is found from an offset is found from every other one. -/
theorem walk_add (offset more : ℕ) (format : Option Format) (bytes : List UInt8) :
    walk (offset + more) format bytes =
      (walk offset format bytes).map
        fun header => { header with dataOffset := header.dataOffset + more } := by
  induction hlength : bytes.length using Nat.strong_induction_on generalizing offset
    format bytes with
  | h length ih =>
    by_cases hend : bytes = []
    · rw [hend, walk_nil, walk_nil]
      rfl
    by_cases hshort : bytes.length < 8
    · rw [walk_short hend hshort, walk_short hend hshort]
      rfl
    have hih (format : Option Format) :=
      ih _ (show (bytes.drop (8 + leAt bytes 4 4 + leAt bytes 4 4 % 2)).length <
      length by rw [List.length_drop]; omega) (offset + (8 + leAt bytes 4 4 + leAt bytes 4 4 % 2))
        format _ rfl
    simp only [Nat.add_right_comm offset _ more] at hih
    have hlong : 8 ≤ bytes.length := by omega
    rw [@walk_header bytes (offset + more) format hlong, @walk_header bytes offset format hlong]
    split_ifs
    · cases chunkFormat (bytes.drop 8) (leAt bytes 4 4) with
      | error error => rfl
      | ok format => exact hih (some format)
    · cases format with
      | none => rfl
      | some format =>
        exact congrArg (fun start =>
          (Except.ok ⟨format, start, leAt bytes 4 4⟩ : Except WavError Header))
          (Nat.add_right_comm offset more 8)
    · exact hih format

/-- What is found is found in every longer file. -/
theorem walk_append {header : Header} (h : walk offset format bytes = .ok header)
    (rest : List UInt8) :
    walk offset format (bytes ++ rest) = .ok header := by
  induction hlength : bytes.length using Nat.strong_induction_on generalizing offset
    format bytes with
  | h length ih =>
    by_cases hend : bytes = []
    · rw [hend, walk_nil] at h
      cases h
    by_cases hshort : bytes.length < 8
    · rw [walk_short hend hshort] at h
      cases h
    rw [walk_header (by omega)] at h
    rw [walk_header (by rw [List.length_append]; omega), List.take_append_of_le_length (by omega),
      leAt_append (by omega)]
    -- the chunk is whole, or nothing would be found behind it
    have hnext {offset' : ℕ} {format' : Option Format}
        (hwalk : walk offset' format'
          (bytes.drop (8 + leAt bytes 4 4 + leAt bytes 4 4 % 2)) = .ok header) :
        8 + leAt bytes 4 4 + leAt bytes 4 4 % 2 ≤ bytes.length ∧
          walk offset' format' ((bytes ++ rest).drop (8 + leAt bytes 4 4 + leAt bytes 4 4 % 2)) =
            .ok header := by
      have hle : 8 + leAt bytes 4 4 + leAt bytes 4 4 % 2 ≤ bytes.length := by
        by_contra hgt
        rw [List.drop_eq_nil_of_le (by omega), walk_nil] at hwalk
        cases hwalk
      refine ⟨hle, ?_⟩
      rw [List.drop_append_of_le_length hle]
      exact ih _ (by rw [List.length_drop]; omega) hwalk rfl
    split_ifs at h ⊢ with hfmt hdata
    · cases hfound : chunkFormat (bytes.drop 8) (leAt bytes 4 4) with
      | error error =>
        rw [hfound] at h
        cases h
      | ok found =>
        rw [hfound] at h
        obtain ⟨hle, hwalk⟩ := hnext h
        rw [List.drop_append_of_le_length (by omega)]
        unfold chunkFormat at hfound ⊢
        split_ifs at hfound with hcut
        rw [if_neg (by rw [List.length_append]; omega), formatOf_append (by omega), hfound]
        exact hwalk
    · cases format with
      | none => cases h
      | some format => exact h
    · exact (hnext h).2

/-- A format that is played. -/
structure Format.Playable (f : Format) : Prop where
  channels : f.channels = 1 ∨ f.channels = 2
  bits : f.bits = 8 ∨ f.bits = 16
  rate : f.rate ≠ 0

theorem Format.Playable.frameBytes_pos {f : Format} (h : f.Playable) : 0 < f.frameBytes := by
  obtain ⟨hchannels, hbits, -⟩ := h
  unfold Format.frameBytes
  rcases hchannels with hchannels | hchannels <;> rcases hbits with hbits | hbits <;>
    rw [hchannels, hbits] <;> decide

theorem formatOf_playable {f : Format} (h : formatOf bytes = .ok f) : f.Playable := by
  unfold formatOf checkFormat at h
  split_ifs at h with htag hchannels hbits hrate
  cases h
  exact ⟨by dsimp only; omega, by dsimp only; omega, hrate⟩

/-- What is found is played, and the samples start in the file. -/
theorem walk_found {header : Header} (h : walk offset format bytes = .ok header)
    (hformat : ∀ f ∈ format, f.Playable) :
    header.Playable ∧ offset ≤ header.dataOffset ∧ header.dataOffset ≤ offset + bytes.length := by
  induction hlength : bytes.length using Nat.strong_induction_on generalizing offset
    format bytes with
  | h length ih =>
    by_cases hend : bytes = []
    · rw [hend, walk_nil] at h
      cases h
    by_cases hshort : bytes.length < 8
    · rw [walk_short hend hshort] at h
      cases h
    rw [walk_header (by omega)] at h
    have hnext {format : Option Format}
      (hwalk : walk (offset + (8 + leAt bytes 4 4 + leAt bytes 4 4 % 2)) format
        (bytes.drop (8 + leAt bytes 4 4 + leAt bytes 4 4 % 2)) = .ok header)
          (hformat : ∀ f ∈ format, f.Playable) :
        header.Playable ∧ offset ≤ header.dataOffset ∧ header.dataOffset ≤ offset + length := by
      have hle : 8 + leAt bytes 4 4 + leAt bytes 4 4 % 2 ≤ bytes.length := by
        by_contra hgt
        rw [List.drop_eq_nil_of_le (by omega), walk_nil] at hwalk
        cases hwalk
      obtain ⟨hplayable, hfrom, hto⟩ := ih _ (by rw [List.length_drop]; omega) hwalk hformat rfl
      rw [List.length_drop] at hto
      exact ⟨hplayable, by omega, by omega⟩
    split_ifs at h
    · cases hfound : chunkFormat (bytes.drop 8) (leAt bytes 4 4) with
      | error error =>
        rw [hfound] at h
        cases h
      | ok found =>
        rw [hfound] at h
        unfold chunkFormat at hfound
        split_ifs at hfound
        refine hnext h fun f hf => ?_
        obtain rfl := Option.some.inj hf
        exact formatOf_playable hfound
    · cases format with
      | none => cases h
      | some format =>
        cases h
        exact ⟨hformat format rfl, Nat.le_add_right _ _, by dsimp only; omega⟩
    · exact hnext h hformat

/-- An unknown chunk between others moves what is found behind it. -/
theorem walk_insert {before : List Chunk} (hbefore : ∀ c ∈ before, c.id ≠ dataId) {chunk : Chunk}
    (hfmt : chunk.id ≠ fmtId) (hdata : chunk.id ≠ dataId) (offset : ℕ) (format : Option Format)
    (rest : List UInt8) :
    walk offset format (before.flatMap Chunk.encode ++ (chunk.encode ++ rest)) =
      (walk offset format (before.flatMap Chunk.encode ++ rest)).map fun header =>
        { header with dataOffset := header.dataOffset + chunk.encode.length } := by
  induction before generalizing offset format with
  | nil =>
    rw [List.flatMap_nil, List.nil_append, List.nil_append, walk_chunk chunk hdata,
      if_neg hfmt, walk_add]
  | cons c before ih =>
    obtain ⟨hc, hbefore⟩ := List.forall_mem_cons.mp hbefore
    rw [List.flatMap_cons, List.append_assoc, List.append_assoc, walk_chunk c hc, walk_chunk c hc]
    split_ifs
    · cases chunkFormat c.body c.body.length with
      | error error => rfl
      | ok format => exact ih hbefore _ (some format)
    · exact ih hbefore _ format

/-- The samples of a file start behind all chunks before them. -/
theorem walk_behind {before : List Chunk} (hbefore : ∀ c ∈ before, c.id ≠ dataId) {header : Header}
    (h : walk offset format (before.flatMap Chunk.encode ++ rest) = .ok header) :
    offset + (before.flatMap Chunk.encode).length ≤ header.dataOffset := by
  induction before generalizing offset format with
  | nil =>
    have hadd := walk_add 0 offset format rest
    rw [List.flatMap_nil, List.nil_append, ← Nat.zero_add offset, hadd] at h
    cases hfound : walk 0 format rest with
    | error error =>
      rw [hfound] at h
      cases h
    | ok found =>
      rw [hfound] at h
      cases h
      exact Nat.le_add_left _ _
  | cons c before ih =>
    obtain ⟨hc, hbefore⟩ := List.forall_mem_cons.mp hbefore
    rw [List.flatMap_cons, List.append_assoc, walk_chunk c hc] at h
    rw [List.flatMap_cons, List.length_append, ← Nat.add_assoc]
    split_ifs at h
    · cases hfound : chunkFormat c.body c.body.length with
      | error error =>
        rw [hfound] at h
        cases h
      | ok found =>
        rw [hfound] at h
        exact ih hbefore h
    · exact ih hbefore h

/-! ## The header and the samples -/

/-- The header of a file, from its bytes. -/
def scanHeader (bytes : List UInt8) : Except WavError Header :=
  if bytes.length < 12 ∨ bytes.take 4 ≠ riff ∨ (bytes.drop 8).take 4 ≠ wave then .error .notWave
  else walk 12 none (bytes.drop 12)

/-- The samples: what is recorded, cut to the file and to whole frames. -/
def samplesLength (header : Header) (fileSize : ℕ) : ℕ :=
  let length := min header.dataLength (fileSize - header.dataOffset)
  length - length % header.frameBytes

def samples (header : Header) (bytes : List UInt8) : List UInt8 :=
  (bytes.drop header.dataOffset).take (samplesLength header bytes.length)

theorem parseHeader_eq (s : Slice) : parseHeader s = ExceptT.mk (some (scanHeader s.bytes)) := by
  unfold parseHeader scanHeader
  by_cases hshort : s.bytes.length < 12
  · rw [rejectIf, if_pos hshort, if_pos (.inl hshort)]
    rfl
  have hcontainer := @slice_eq s.bytes 0 4 (by omega)
  have hkind := @slice_eq s.bytes 8 4 (by omega)
  rw [Nat.zero_add, List.drop_zero] at hcontainer
  rw [rejectIf, if_neg hshort, hcontainer, pure_bind, pure_bind]
  by_cases hriff : s.bytes.take 4 ≠ riff
  · rw [rejectIf, if_pos hriff, if_pos (.inr (.inl hriff))]
    rfl
  rw [rejectIf, if_neg hriff, pure_bind, hkind, pure_bind]
  by_cases hwave : (s.bytes.drop 8).take 4 ≠ wave
  · rw [rejectIf, if_pos hwave, if_pos (.inr (.inr hwave))]
    rfl
  rw [rejectIf, if_neg hwave, pure_bind, parseChunks_eq,
    if_neg (by simp only [hshort, hriff, hwave, or_self, not_false_eq_true])]

theorem scanHeader_found {header : Header} (h : scanHeader bytes = .ok header) :
    header.Playable ∧ 12 ≤ header.dataOffset ∧ header.dataOffset ≤ bytes.length := by
  unfold scanHeader at h
  split_ifs at h with hwave
  obtain ⟨hplayable, hfrom, hto⟩ := walk_found h (by simp)
  rw [List.length_drop] at hto
  exact ⟨hplayable, hfrom, by omega⟩

/-- The samples lie in the file. -/
theorem samplesLength_le {header : Header} {fileSize : ℕ} (h : header.dataOffset ≤ fileSize) :
    header.dataOffset + samplesLength header fileSize ≤ fileSize := by
  unfold samplesLength
  dsimp only
  have hmin := min_le_right header.dataLength (fileSize - header.dataOffset)
  omega

theorem parse_eq (s : Slice) :
    parse s = ExceptT.mk (some ((scanHeader s.bytes).map
      fun header => ⟨header.toFormat, samples header s.bytes⟩)) := by
  rw [parse, parseHeader_eq]
  cases hscan : scanHeader s.bytes with
  | error error => rfl
  | ok header =>
    obtain ⟨hplayable, -, hto⟩ := scanHeader_found hscan
    have hplayed : header.playable s.bytes.length = pure (samplesLength header s.bytes.length) :=
      if_neg hplayable.frameBytes_pos.ne'
    have hslice := slice_eq (samplesLength_le hto)
    change (header.playable s.bytes.length >>= fun length =>
      slice s.bytes header.dataOffset (header.dataOffset + length) >>=
        fun data => pure (⟨header.toFormat, data⟩ : Wav)) = _
    rw [hplayed, pure_bind, hslice]
    rfl

/-- The longest whole number of frames in what is recorded and in the file. -/
theorem samplesLength_greatest {header : Header} {fileSize length : ℕ}
    (hframes : header.frameBytes ∣ length)
    (hrecorded : length ≤ header.dataLength) (hfile : header.dataOffset + length ≤ fileSize) :
    length ≤ samplesLength header fileSize := by
  have hle : length ≤ min header.dataLength (fileSize - header.dataOffset) :=
    le_min hrecorded (by omega)
  unfold samplesLength
  dsimp only
  generalize min header.dataLength (fileSize - header.dataOffset) = limit at hle ⊢
  obtain ⟨frames, rfl⟩ := hframes
  obtain hzero | hpos := Nat.eq_zero_or_pos header.frameBytes
  · rw [hzero, Nat.zero_mul]
    exact Nat.zero_le _
  · have hframes : frames ≤ limit / header.frameBytes :=
      (Nat.le_div_iff_mul_le hpos).mpr (by rwa [Nat.mul_comm] at hle)
    have hlimit := Nat.div_add_mod limit header.frameBytes
    have hmul := Nat.mul_le_mul_left header.frameBytes hframes
    omega

/-- Where a chunk is inserted before them, the samples are the same. -/
theorem samples_insert {before after inserted : List UInt8} {header : Header}
    (h : before.length ≤ header.dataOffset) :
    samples { header with dataOffset := header.dataOffset + inserted.length }
      (before ++ (inserted ++ after)) =
      samples header (before ++ after) := by
  have hdrop : (before ++ (inserted ++ after)).drop (header.dataOffset + inserted.length) =
      (before ++ after).drop header.dataOffset := by
    have hinserted : (before ++ inserted).length ≤ header.dataOffset + inserted.length := by
      rw [List.length_append]
      omega
    rw [← List.append_assoc, List.drop_append, List.drop_eq_nil_of_le hinserted, List.drop_append,
      List.drop_eq_nil_of_le h, List.length_append]
    congr 2
    omega
  have hlength : (before ++ (inserted ++ after)).length - (header.dataOffset + inserted.length) =
      (before ++ after).length - header.dataOffset := by
    simp only [List.length_append]
    omega
  rw [samples, samples, samplesLength, samplesLength, hdrop, hlength]

/-- The header of a file with an unknown chunk more before the samples. -/
theorem scanHeader_insert {start rest : List UInt8} {before : List Chunk}
    (hstart : start.length = 12)
    (hbefore : ∀ c ∈ before, c.id ≠ dataId) {chunk : Chunk} (hfmt : chunk.id ≠ fmtId)
    (hdata : chunk.id ≠ dataId) :
    scanHeader (start ++ (before.flatMap Chunk.encode ++ (chunk.encode ++ rest))) =
      (scanHeader (start ++ (before.flatMap Chunk.encode ++ rest))).map fun header =>
        { header with dataOffset := header.dataOffset + chunk.encode.length } := by
  have hwave (rest : List UInt8) : (start ++ rest).length < 12 ∨ (start ++ rest).take 4 ≠ riff ∨
      ((start ++ rest).drop 8).take 4 ≠ wave ↔ start.take 4 ≠ riff ∨
        (start.drop 8).take 4 ≠ wave := by
    have hlong : ¬ (start ++ rest).length < 12 := by
      rw [List.length_append]
      omega
    rw [List.take_append_of_le_length (by omega), List.drop_append_of_le_length (by omega),
      List.take_append_of_le_length (by rw [List.length_drop]; omega)]
    exact or_iff_right hlong
  unfold scanHeader
  simp only [hwave, List.drop_left' hstart]
  split_ifs
  · rfl
  · exact walk_insert hbefore hfmt hdata 12 none rest

/-- What a header was found in the beginning of a file holds of the whole file. -/
theorem scanHeader_append {header : Header} (h : scanHeader bytes = .ok header)
    (rest : List UInt8) :
    scanHeader (bytes ++ rest) = .ok header := by
  unfold scanHeader at h ⊢
  split_ifs at h with hwave
  obtain ⟨hlong, hkind⟩ := not_or.mp hwave
  rw [List.take_append_of_le_length (by omega), List.drop_append_of_le_length (by omega),
    List.take_append_of_le_length (by rw [List.length_drop]; omega),
      List.drop_append_of_le_length (by omega),
    if_neg (not_or.mpr ⟨by rw [List.length_append]; omega, hkind⟩)]
  exact walk_append h rest

/-- **WAV files are parsed without a panic.** A header that is found in the beginning of a file is
that of every longer part and of the file. An unknown chunk that is inserted before the `data`
chunk, behind any chunks, moves the samples by its padded length and changes nothing else. The
samples are the longest whole number of frames in the file and in the recorded size. -/
theorem parse_wav :
    (∀ s, (∃ header, (parseHeader s).run = some header) ∧ ∃ wav, (parse s).run = some wav) ∧
    (∀ (s s' : Slice) (header : Header), s.bytes <+: s'.bytes →
      (parseHeader s).run = some (.ok header) →
      (parseHeader s').run = some (.ok header)) ∧
    (∀ (s s' : Slice) (start rest : List UInt8) (before : List Chunk) (chunk : Chunk),
      start.length = 12 →
      (∀ c ∈ before, c.id ≠ dataId) → chunk.id ≠ fmtId → chunk.id ≠ dataId →
      s.bytes = start ++ (before.flatMap Chunk.encode ++ rest) →
      s'.bytes = start ++ (before.flatMap Chunk.encode ++ (chunk.encode ++ rest)) →
      (parseHeader s').run = (parseHeader s).run.map (Except.map fun header =>
        { header with dataOffset := header.dataOffset
          + (8 + chunk.body.length + chunk.body.length % 2) }) ∧
      (parse s').run = (parse s).run) ∧
    ∀ s wav, (parse s).run = some (.ok wav) →
      ∃ header length, (parseHeader s).run = some (.ok header) ∧
      wav.toFormat = header.toFormat ∧ wav.data = (s.bytes.drop header.dataOffset).take length ∧
      wav.data.length = length ∧ header.frameBytes ∣ length ∧ length ≤ header.dataLength ∧
      header.dataOffset + length ≤ s.bytes.length ∧
      ∀ longer, header.frameBytes ∣ longer → longer ≤ header.dataLength →
        header.dataOffset + longer ≤ s.bytes.length → longer ≤ length := by
  refine ⟨fun s => ⟨⟨_, congrArg ExceptT.run (parseHeader_eq s)⟩, _,
    congrArg ExceptT.run (parse_eq s)⟩, ?_, ?_, ?_⟩
  · rintro s s' header ⟨rest, hrest⟩ h
    rw [parseHeader_eq] at h ⊢
    rw [← hrest]
    exact congrArg some (scanHeader_append (Option.some.inj h) rest)
  · intro s s' start rest before chunk hstart hbefore hfmt hdata hs hs'
    have hinsert := @scanHeader_insert start rest before hstart hbefore chunk hfmt hdata
    rw [parseHeader_eq, parseHeader_eq, parse_eq, parse_eq, hs, hs', hinsert, chunk.length_encode]
    refine ⟨rfl, congrArg some ?_⟩
    cases hscan : scanHeader (start ++ (before.flatMap Chunk.encode ++ rest)) with
    | error error => rfl
    | ok header =>
      have hbehind : (start ++ before.flatMap Chunk.encode).length ≤ header.dataOffset := by
        unfold scanHeader at hscan
        split_ifs at hscan
        rw [List.drop_left' hstart] at hscan
        have hwalk := walk_behind hbefore hscan
        rw [List.length_append]
        omega
      have hsamples := @samples_insert _ rest chunk.encode header hbehind
      rw [List.append_assoc, List.append_assoc, chunk.length_encode] at hsamples
      exact congrArg (fun data => Except.ok (Wav.mk header.toFormat data)) hsamples
  · intro s wav h
    rw [parse_eq] at h
    cases hscan : scanHeader s.bytes with
    | error error =>
      rw [hscan] at h
      cases h
    | ok header =>
      rw [hscan] at h
      cases h
      obtain ⟨hplayable, -, hto⟩ := scanHeader_found hscan
      have hle := samplesLength_le hto
      refine ⟨header, samplesLength header s.bytes.length, ?_, rfl, rfl, ?_, ?_, ?_, hle, ?_⟩
      · rw [parseHeader_eq, hscan]
        rfl
      · change (samples header s.bytes).length = _
        rw [samples, List.length_take, List.length_drop]
        omega
      · exact Nat.dvd_sub_mod _
      · exact (Nat.sub_le _ _).trans (min_le_left _ _)
      · exact fun longer => samplesLength_greatest

/-- A mono file of three 8-bit samples with a chunk of one byte before them. -/
theorem parse_wav_oddChunk :
    let start := riff ++ [0, 0, 0, 0] ++ wave
    let format := fmtId ++ [16, 0, 0, 0, 1, 0, 1, 0, 0x40, 0x1f, 0, 0, 0x40, 0x1f, 0, 0, 1, 0, 8, 0]
    let data := dataId ++ [3, 0, 0, 0, 7, 8, 9]
    (parse ⟨start ++ (format ++ ([1, 1, 1, 1, 1, 0, 0, 0, 5, 0] ++ data)), by decide⟩).run =
      (parse ⟨start ++ (format ++ data), by decide⟩).run := by
  let format : Chunk := ⟨fmtId, [1, 0, 1, 0, 0x40, 0x1f, 0, 0, 0x40, 0x1f, 0, 0, 1, 0, 8, 0], [],
    rfl, by decide, rfl⟩
  let odd : Chunk := ⟨[1, 1, 1, 1], [5], [0], rfl, by decide, rfl⟩
  exact (parse_wav.2.2.1 _ _ (riff ++ [0, 0, 0, 0] ++ wave) (dataId ++ [3, 0, 0, 0, 7, 8, 9])
    [format] odd
    (by decide) (by decide) (by decide) (by decide) (by decide +kernel) (by decide +kernel)).2

end SaeOS.Wav
