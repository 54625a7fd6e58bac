import Mathlib.Data.List.Basic
import Mathlib.Data.List.TakeWhile

/-!
# Reading lines through a buffer

`libsaeos/src/lines.rs`. The underlying `read` is a list of what its calls give, one after the other, with
the end of the file after the last. How the bytes are cut into reads does not matter: `read_line` only sees
the sequence of bytes, ends of file and errors (`readLine_spec`).
-/

namespace SaeOS.Libsaeos.Lines

def buffer : ℕ := 4096

def newline : UInt8 := 10

/-- What one call of `read` gives: the bytes it filled in, none of them at the end of the file, or an
error. -/
inductive Read (ε : Type) where
  | bytes (filled : List UInt8) (fits : filled.length ≤ buffer)
  | error (error : ε)

/-- `buffer[start..]` has not been returned yet. -/
structure LineReader where
  buffer : List UInt8
  start : ℕ
  start_le : start ≤ buffer.length

namespace LineReader

def new : LineReader :=
  ⟨[], 0, le_rfl⟩

def pending (r : LineReader) : List UInt8 :=
  r.buffer.drop r.start

end LineReader

variable {ε : Type}

/-- What a call of `read_line` leaves: its result, the reader, the caller's line and the reads to come. -/
structure Return (ε : Type) where
  result : Except ε ℕ
  reader : LineReader
  line : List UInt8
  source : List (Read ε)

/-- `start += newline + 1`, where the newline is a pending byte. -/
def LineReader.skipPast (r : LineReader) (position : ℕ) (h : position < r.pending.length) : LineReader :=
  ⟨r.buffer, r.start + (position + 1), by
    rw [pending, List.length_drop] at h
    omega⟩

/-- The reader once `read` has filled `count` bytes of the cleared buffer. -/
def LineReader.refill (filled : List UInt8) : LineReader :=
  let resized := List.replicate Lines.buffer 0
  ⟨(filled ++ resized.drop filled.length).take filled.length, 0, Nat.zero_le _⟩

/-- The loop of `read_line`. -/
def readLineLoop (before : ℕ) (r : LineReader) (line : List UInt8) (source : List (Read ε)) : Return ε :=
  if h : r.pending.idxOf newline < r.pending.length then
    let position := r.pending.idxOf newline
    let line := line ++ r.pending.take (position + 1)
    ⟨.ok (line.length - before), r.skipPast position h, line, source⟩
  else
    let line := line ++ r.pending
    match source with
    | [] => ⟨.ok (line.length - before), .new, line, []⟩
    | .error error :: source => ⟨.error error, .new, line, source⟩
    | .bytes filled _ :: source =>
      let r := LineReader.refill filled
      if filled.length = 0 then ⟨.ok (line.length - before), r, line, source⟩
      else readLineLoop before r line source

/-- Append the next line to `line`; returns its length, 0 at end of file. -/
def readLine (r : LineReader) (line : List UInt8) (source : List (Read ε)) : Return ε :=
  readLineLoop line.length r line source

/-- Successive calls, each with the caller's own line: their results and what the lines have become. -/
def readLines (r : LineReader) (source : List (Read ε)) : List (List UInt8) → List (Except ε ℕ × List UInt8)
  | [] => []
  | line :: lines =>
    let call := readLine r line source
    (call.result, call.line) :: readLines call.reader call.source lines

/-! ## The stream without its chunks -/

/-- A byte of the stream, or what may stand between its bytes. -/
inductive Symbol (ε : Type) where
  | byte (byte : UInt8)
  | endOfFile
  | error (error : ε)

def Read.symbols : Read ε → List (Symbol ε)
  | .bytes filled _ => if filled = [] then [.endOfFile] else filled.map .byte
  | .error code => [.error code]

/-- Everything that is still to be returned, however it is cut into reads. -/
def unread (r : LineReader) (source : List (Read ε)) : List (Symbol ε) :=
  r.pending.map .byte ++ source.flatMap Read.symbols

/-- The stream's bytes. -/
def streamBytes (stream : List (Symbol ε)) : List UInt8 :=
  stream.filterMap fun | .byte byte => some byte | _ => none

/-- Cut the stream after its first newline, or at an end of file or an error before it. The bytes, how they
end, and the rest of the stream. -/
def cut : List (Symbol ε) → List UInt8 × Except ε Unit × List (Symbol ε)
  | [] => ([], .ok (), [])
  | .endOfFile :: rest => ([], .ok (), rest)
  | .error error :: rest => ([], .error error, rest)
  | .byte byte :: rest =>
    if byte = newline then ([byte], .ok (), rest)
    else
      let (bytes, ending, rest) := cut rest
      (byte :: bytes, ending, rest)

/-- Cut as often as asked. -/
def cuts : ℕ → List (Symbol ε) → List (List UInt8 × Except ε Unit)
  | 0, _ => []
  | calls + 1, stream =>
    let (bytes, ending, rest) := cut stream
    (bytes, ending) :: cuts calls rest

/-- What is left of the stream then. -/
def afterCuts : ℕ → List (Symbol ε) → List (Symbol ε)
  | 0, stream => stream
  | calls + 1, stream => afterCuts calls (cut stream).2.2

/-! ### Cutting -/

/-- Bytes without a newline go before whatever the rest is cut into. -/
theorem cut_append {bytes : List UInt8} (h : newline ∉ bytes) (rest : List (Symbol ε)) :
    cut (bytes.map .byte ++ rest) = (bytes ++ (cut rest).1, (cut rest).2) := by
  induction bytes with
  | nil => rfl
  | cons byte bytes ih =>
    obtain ⟨hbyte, hbytes⟩ := List.ne_and_not_mem_of_not_mem_cons h
    rw [List.map_cons, List.cons_append, cut, if_neg (Ne.symm hbyte), ih hbytes]
    rfl

/-- A cut loses no byte and repeats none. -/
theorem streamBytes_cut (stream : List (Symbol ε)) :
    (cut stream).1 ++ streamBytes (cut stream).2.2 = streamBytes stream := by
  induction stream with
  | nil => rfl
  | cons symbol rest ih =>
    cases symbol with
    | endOfFile => rfl
    | error error => rfl
    | byte byte =>
      rw [cut]
      split
      · rfl
      · exact congrArg (byte :: ·) ih

/-- One line of the stream: its bytes, how it ends, and the rest. It ends with the first newline, or,
without one, at an end of file or an error. -/
inductive Cut : List (Symbol ε) → List UInt8 → Except ε Unit → List (Symbol ε) → Prop
  | line {body : List UInt8} {rest : List (Symbol ε)} (h : newline ∉ body) :
      Cut (body.map .byte ++ .byte newline :: rest) (body ++ [newline]) (.ok ()) rest
  | endOfFile {body : List UInt8} {rest : List (Symbol ε)} (h : newline ∉ body) :
      Cut (body.map .byte ++ .endOfFile :: rest) body (.ok ()) rest
  | last {body : List UInt8} (h : newline ∉ body) : Cut (body.map .byte) body (.ok ()) []
  | error {body : List UInt8} {code : ε} {rest : List (Symbol ε)} (h : newline ∉ body) :
      Cut (body.map .byte ++ .error code :: rest) body (.error code) rest

/-- A byte before a line that is not a newline belongs to it. -/
theorem Cut.cons {stream rest : List (Symbol ε)} {bytes : List UInt8} {ending : Except ε Unit}
    (h : Cut stream bytes ending rest) {byte : UInt8} (hbyte : byte ≠ newline) :
    Cut (.byte byte :: stream) (byte :: bytes) ending rest := by
  cases h with
  | line hbody => exact .line (List.not_mem_cons_of_ne_of_not_mem hbyte.symm hbody)
  | endOfFile hbody => exact .endOfFile (List.not_mem_cons_of_ne_of_not_mem hbyte.symm hbody)
  | last hbody => exact .last (List.not_mem_cons_of_ne_of_not_mem hbyte.symm hbody)
  | error hbody => exact .error (List.not_mem_cons_of_ne_of_not_mem hbyte.symm hbody)

theorem cut_spec (stream : List (Symbol ε)) :
    Cut stream (cut stream).1 (cut stream).2.1 (cut stream).2.2 := by
  induction stream with
  | nil => exact .last List.not_mem_nil
  | cons symbol rest ih =>
    cases symbol with
    | endOfFile => exact .endOfFile List.not_mem_nil
    | error code => exact .error List.not_mem_nil
    | byte byte =>
      rw [cut]
      split
      · rename_i hbyte
        subst hbyte
        exact .line List.not_mem_nil
      · rename_i hbyte
        exact ih.cons hbyte

/-! ## What a call returns -/

@[simp]
theorem pending_refill (filled : List UInt8) : (LineReader.refill filled).pending = filled := by
  simp [LineReader.refill, LineReader.pending]

/-- The pending bytes after a newline among them. -/
theorem pending_skipPast (r : LineReader) (position : ℕ) (h : position < r.pending.length) :
    (r.skipPast position h).pending = r.pending.drop (position + 1) := by
  simp [LineReader.skipPast, LineReader.pending]

/-- The first newline of some bytes: those before it have none. -/
theorem take_idxOf {bytes : List UInt8} (h : bytes.idxOf newline < bytes.length) :
    newline ∉ bytes.take (bytes.idxOf newline) ∧
      bytes = bytes.take (bytes.idxOf newline) ++ newline :: bytes.drop (bytes.idxOf newline + 1) := by
  constructor
  · intro hmem
    obtain ⟨i, hi, hget⟩ := List.mem_take_iff_getElem.mp hmem
    have hbefore := List.not_of_lt_findIdx (show i < bytes.findIdx (· == newline) by
      change i < bytes.idxOf newline
      omega)
    simp only [beq_eq_false_iff_ne] at hbefore
    exact hbefore hget
  · have hget : bytes[bytes.idxOf newline] = newline := List.getElem_idxOf h
    conv_lhs => rw [← List.take_append_drop (bytes.idxOf newline) bytes, List.drop_eq_getElem_cons h, hget]

/-- Pending bytes with a newline are cut after it. -/
theorem cut_of_newline {bytes : List UInt8} (h : bytes.idxOf newline < bytes.length)
    (rest : List (Symbol ε)) :
    cut (bytes.map .byte ++ rest) = (bytes.take (bytes.idxOf newline + 1), .ok (),
      (bytes.drop (bytes.idxOf newline + 1)).map .byte ++ rest) := by
  obtain ⟨hbefore, hsplit⟩ := take_idxOf h
  have htake : bytes.take (bytes.idxOf newline + 1) = bytes.take (bytes.idxOf newline) ++ [newline] := by
    rw [List.take_succ_eq_append_getElem h, List.getElem_idxOf h]
  have hmap : bytes.map Symbol.byte ++ rest = (bytes.take (bytes.idxOf newline)).map .byte ++
      .byte newline :: ((bytes.drop (bytes.idxOf newline + 1)).map .byte ++ rest) := by
    conv_lhs => rw [hsplit, List.map_append, List.map_cons, List.append_assoc, List.cons_append]
  rw [hmap, cut_append hbefore, cut, if_pos rfl, htake]

/-- A call of the loop appends what the stream is cut into and leaves the rest. -/
def Follows (before : ℕ) (line : List UInt8) (stream : List (Symbol ε)) (call : Return ε) : Prop :=
  call.line = line ++ (cut stream).1 ∧ unread call.reader call.source = (cut stream).2.2 ∧
    call.result = (cut stream).2.1.map fun _ => (line ++ (cut stream).1).length - before

/-- With a newline pending, nothing is read. -/
theorem follows_of_newline (before : ℕ) {r : LineReader} (h : r.pending.idxOf newline < r.pending.length)
    (line : List UInt8) (source : List (Read ε)) :
    Follows before line (unread r source) (readLineLoop before r line source) := by
  rw [readLineLoop.eq_def, dif_pos h, Follows, unread, cut_of_newline h]
  refine ⟨rfl, ?_, rfl⟩
  rw [unread, pending_skipPast]

/-- A call follows the stream, whatever the reads it comes in. -/
theorem follows_readLineLoop (before : ℕ) (r : LineReader) (line : List UInt8) (source : List (Read ε)) :
    Follows before line (unread r source) (readLineLoop before r line source) := by
  -- induction on the reads; the pending bytes are looked at first in every round
  induction source generalizing r line with
  | nil =>
    by_cases h : r.pending.idxOf newline < r.pending.length
    · exact follows_of_newline before h line []
    · have hnone : newline ∉ r.pending := fun hmem => h (List.idxOf_lt_length_iff.mpr hmem)
      rw [readLineLoop, dif_neg h, unread, Follows, cut_append hnone]
      refine ⟨congrArg (line ++ ·) (List.append_nil _).symm, rfl, ?_⟩
      exact congrArg (fun pending : List UInt8 => (.ok ((line ++ pending).length - before) : Except ε ℕ))
        (List.append_nil _).symm
  | cons read source ih =>
    by_cases h : r.pending.idxOf newline < r.pending.length
    · exact follows_of_newline before h line (read :: source)
    have hnone : newline ∉ r.pending := fun hmem => h (List.idxOf_lt_length_iff.mpr hmem)
    rw [readLineLoop, dif_neg h, unread, Follows, cut_append hnone, List.flatMap_cons]
    cases read with
    | error code => exact ⟨congrArg (line ++ ·) (List.append_nil _).symm, rfl, rfl⟩
    | bytes filled hfits =>
      by_cases hempty : filled = []
      · subst hempty
        refine ⟨congrArg (line ++ ·) (List.append_nil _).symm, rfl, ?_⟩
        exact congrArg (fun pending : List UInt8 => (.ok ((line ++ pending).length - before) : Except ε ℕ))
          (List.append_nil _).symm
      · have hlength : ¬ filled.length = 0 := fun h => hempty (List.length_eq_zero_iff.mp h)
        -- the refilled buffer is all pending, so the stream to be cut is still the same
        have hunread : unread (LineReader.refill filled) source =
            (Read.bytes filled hfits).symbols ++ source.flatMap Read.symbols := by
          rw [unread, pending_refill, Read.symbols, if_neg hempty]
        have hfollows := ih (LineReader.refill filled) (line ++ r.pending)
        rw [hunread, Follows, List.append_assoc] at hfollows
        dsimp only
        rw [if_neg hlength]
        exact hfollows

/-- One call: what the caller's line gets, what is left, and the number of bytes returned. -/
theorem readLine_spec (r : LineReader) (line : List UInt8) (source : List (Read ε)) :
    (readLine r line source).line = line ++ (cut (unread r source)).1 ∧
    unread (readLine r line source).reader (readLine r line source).source =
      (cut (unread r source)).2.2 ∧
    (readLine r line source).result =
      (cut (unread r source)).2.1.map fun _ => (cut (unread r source)).1.length := by
  obtain ⟨hline, hrest, hresult⟩ := follows_readLineLoop line.length r line source
  refine ⟨hline, hrest, ?_⟩
  rw [List.length_append, Nat.add_sub_cancel_left] at hresult
  exact hresult

/-- A sequence of calls. -/
theorem readLines_eq (r : LineReader) (source : List (Read ε)) (lines : List (List UInt8)) :
    readLines r source lines = lines.zipWith
      (fun line (bytes, ending) => (ending.map fun _ => bytes.length, line ++ bytes))
      (cuts lines.length (unread r source)) := by
  induction lines generalizing r source with
  | nil => rfl
  | cons line lines ih =>
    obtain ⟨hline, hrest, hresult⟩ := readLine_spec r line source
    rw [readLines, ih, hrest, hline, hresult]
    rfl

theorem streamBytes_cuts (calls : ℕ) (stream : List (Symbol ε)) :
    (cuts calls stream).flatMap Prod.fst ++ streamBytes (afterCuts calls stream) = streamBytes stream := by
  induction calls generalizing stream with
  | zero => rfl
  | succ calls ih =>
    rw [cuts, afterCuts, List.flatMap_cons, List.append_assoc, ih]
    exact streamBytes_cut stream

theorem cuts_getElem? {calls i : ℕ} (h : i < calls) (stream : List (Symbol ε)) :
    (cuts calls stream)[i]? =
      some ((cut (afterCuts i stream)).1, (cut (afterCuts i stream)).2.1) := by
  induction calls generalizing i stream with
  | zero => exact absurd h (Nat.not_lt_zero i)
  | succ calls ih =>
    cases i with
    | zero => rfl
    | succ i => exact ih (Nat.lt_of_succ_lt_succ h) _

theorem afterCuts_succ (i : ℕ) (stream : List (Symbol ε)) :
    afterCuts (i + 1) stream = (cut (afterCuts i stream)).2.2 := by
  induction i generalizing stream with
  | zero => rfl
  | succ i ih => exact ih _

/-- **Lines do not depend on how the stream comes in.** Successive calls append the lines of the stream to
their callers' buffers, each cut after its newline, at the end of the file or at an error, and return their
lengths or the error; the bytes appended and those left are the stream's, in order; and another way to cut
the stream into reads gives the same. -/
theorem readLines_chunking (source : List (Read ε)) (lines : List (List UInt8)) :
    readLines .new source lines = lines.zipWith
      (fun line (bytes, ending) => (ending.map fun _ => bytes.length, line ++ bytes))
      (cuts lines.length (source.flatMap Read.symbols)) ∧
    (∀ i < lines.length, ∃ bytes ending,
      (cuts lines.length (source.flatMap Read.symbols))[i]? = some (bytes, ending) ∧
      Cut (afterCuts i (source.flatMap Read.symbols)) bytes ending
        (afterCuts (i + 1) (source.flatMap Read.symbols))) ∧
    (cuts lines.length (source.flatMap Read.symbols)).flatMap Prod.fst ++
      streamBytes (afterCuts lines.length (source.flatMap Read.symbols)) =
        streamBytes (source.flatMap Read.symbols) ∧
    ∀ source' : List (Read ε), source'.flatMap Read.symbols = source.flatMap Read.symbols →
      readLines .new source' lines = readLines .new source lines := by
  refine ⟨readLines_eq .new source lines, fun i hi => ?_, streamBytes_cuts _ _, fun source' hsame => ?_⟩
  · refine ⟨_, _, cuts_getElem? hi _, ?_⟩
    rw [afterCuts_succ]
    exact cut_spec _
  · rw [readLines_eq, readLines_eq, unread, unread, hsame]

/-- Two lines, an error in the second, in two reads. -/
theorem readLines_chunking_error :
    readLines .new [.bytes [97, 10, 98] (by decide), .error 5, .bytes [99] (by decide)] [[], [], [120]] =
      [((.ok 2 : Except ℕ ℕ), [97, 10]), (.error 5, [98]), (.ok 1, [120, 99])] :=
  (readLines_chunking [.bytes [97, 10, 98] (by decide), .error 5, .bytes [99] (by decide)]
    [[], [], [120]]).1

end SaeOS.Libsaeos.Lines
