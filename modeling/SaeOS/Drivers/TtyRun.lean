import SaeOS.Drivers.Tty

/-!
# Sessions at the console

Bytes arrive and lines are read, in any order. A session also keeps the row that the echo draws,
what was on it before the line being edited, the completed lines, and what the reads have returned
with the size of each one's buffer.
-/

namespace SaeOS.Tty

open Terminal

/-- What a completed line is for a reader. -/
inductive Completed where
  | line (bytes : List UInt8)
  | endOfFile
deriving DecidableEq

def Completed.bytes : Completed → List UInt8
  | .line bytes => bytes
  | .endOfFile => []

/-- The record of a line of which nothing has been read. -/
def Completed.record : Completed → Record
  | .line bytes => .line bytes 0
  | .endOfFile => .endOfFile

inductive Event where
  | input (byte : UInt8)
  | read (size : ℕ)
deriving DecidableEq

structure Session where
  tty : LineDiscipline
  row : Row
  before : List UInt8
  completed : List Completed
  reads : List (ℕ × List UInt8)

/-- What an input byte completes. -/
def completedBy (byte : UInt8) (line : List UInt8) : List Completed :=
  if byte = carriageReturn ∨ byte = newline then [.line (line ++ [newline])]
  else if byte = controlD then if line = [] then [.endOfFile] else [.line line]
  else []

/-- What is on the row before the line after an input byte: a line that is completed without a
newline stays there. -/
def beforeAfter (byte : UInt8) (line before : List UInt8) : List UInt8 :=
  if byte = carriageReturn ∨ byte = newline ∨ byte = controlC then []
  else if byte = controlD then before ++ shown line
  else before

namespace Session

/-- The session with a prompt on the row. -/
def start (prompt : List UInt8) : Session :=
  ⟨.new, Row.after prompt 0, prompt, [], []⟩

def step (s : Session) : Event → Session
  | .input byte =>
    ⟨(s.tty.input byte).1, s.row.print (s.tty.input byte).2, beforeAfter byte s.tty.line s.before,
      s.completed ++ completedBy byte s.tty.line, s.reads⟩
  | .read size =>
    { s with
      tty := (s.tty.read size).1
      reads := s.reads ++ ((s.tty.read size).2.map (size, ·)).toList }

def run (prompt : List UInt8) (events : List Event) : Session :=
  events.foldl step (start prompt)

/-- The row shows the edited line behind what was there before it. -/
def Shows (s : Session) : Prop :=
  Echoed s.before s.row s.tty

end Session

/-- What is still to be read when reads have returned the given chunks: each one, with its buffer's
size, as many bytes of the oldest line as fit into the buffer, or nothing for a mark. None if they
are other ones. -/
def left : List Completed → List (ℕ × List UInt8) → Option (List Completed)
  | completed, [] => some completed
  | [], _ :: _ => none
  | .endOfFile :: completed, (_, chunk) :: reads =>
    if chunk = [] then left completed reads else none
  | .line bytes :: completed, (size, chunk) :: reads =>
    if chunk = bytes.take size then
      if bytes.length ≤ size then left completed reads
      else left (.line (bytes.drop size) :: completed) reads
    else none
termination_by _ reads => reads.length

/-- The byte erases bytes at the beginning of the line that continue a character which was not begun
there. -/
def StrayErased (byte : UInt8) (line : List UInt8) : Prop :=
  (byte = backspace ∨ byte = delete) ∧ line ≠ [] ∧ (∀ byte ∈ line, IsContinuation byte) ∨
    byte = controlU ∧ Reached (fun _ => true) line ∨
    byte = controlW ∧ Reached (· ≠ space) (line.rdropWhile (· = space))

/-- Something is on the row before the line, and the event erases bytes without a beginning. -/
def Session.Misses (s : Session) (event : Event) : Prop :=
  ∃ byte, event = .input byte ∧ s.before ≠ [] ∧ StrayErased byte s.tty.line

/-- Every state on the way shows the line, no line is too long, and the reads return what was
completed: each as much of the oldest line as its buffer holds, byte for byte, and none only when
all of it has been read. -/
structure Faithful (prompt : List UInt8) (events : List Event) : Prop where
  shows : ∀ earlier, earlier <+: events → (Session.run prompt earlier).Shows
  line_length : (Session.run prompt events).tty.line.length < lineMax
  completed_length : ∀ bytes, .line bytes ∈ (Session.run prompt events).completed →
    bytes.length ≤ lineMax
  reads : ∃ rest, left (Session.run prompt events).completed
    (Session.run prompt events).reads = some rest ∧
    ((Session.run prompt events).reads.map Prod.snd).flatten ++ rest.flatMap Completed.bytes =
      (Session.run prompt events).completed.flatMap Completed.bytes ∧
    ∀ size, ((Session.run prompt events).tty.read size).2 = none ↔ rest = []

/-! ## One byte -/

variable {t : LineDiscipline} {row : Row} {before : List UInt8} {byte : UInt8}

/-- What `input` does to a discipline that has its widths right and room for a newline. -/
structure InputSpec (t : LineDiscipline) (byte : UInt8) (row : Row) (before : List UInt8)
    (result : LineDiscipline × List UInt8) : Prop where
  measured : result.1.Measured
  length : result.1.line.length < lineMax
  ready : result.1.ready = t.ready ++ (completedBy byte t.line).map Completed.record
  completed : ∀ bytes, .line bytes ∈ completedBy byte t.line → bytes ≠ [] ∧ bytes.length ≤ lineMax
  echo : Echoed before row t →
    (Echoed (beforeAfter byte t.line before) (row.print result.2) result.1 ↔
      before = [] ∨ ¬ StrayErased byte t.line)

theorem lineMax_pos : 0 < lineMax := by
  decide

/-- A byte that neither completes the line nor discards it. -/
structure Edits (byte : UInt8) : Prop where
  not_return : ¬ (byte = carriageReturn ∨ byte = newline)
  not_discard : byte ≠ controlC
  not_end : byte ≠ controlD

variable {result : LineDiscipline × List UInt8}

/-- What is left to show of a byte that edits the line. -/
theorem InputSpec.of_edits (hbyte : Edits byte) (hmeasured : result.1.Measured)
    (hlength : result.1.line.length < lineMax) (hready : result.1.ready = t.ready)
    (hecho : Echoed before row t →
      (Echoed before (row.print result.2) result.1 ↔ before = [] ∨ ¬ StrayErased byte t.line)) :
    InputSpec t byte row before result := by
  have hcompleted : completedBy byte t.line = [] := by
    rw [completedBy, if_neg hbyte.not_return, if_neg hbyte.not_end]
  have hbefore : beforeAfter byte t.line before = before := by
    rw [beforeAfter, if_neg, if_neg hbyte.not_end]
    rintro (h | h | h)
    · exact hbyte.not_return (.inl h)
    · exact hbyte.not_return (.inr h)
    · exact hbyte.not_discard h
  refine ⟨hmeasured, hlength, ?_, ?_, ?_⟩
  · rw [hready, hcompleted, List.map_nil, List.append_nil]
  · rw [hcompleted]
    simp
  · rw [hbefore]
    exact hecho

theorem input_return (hlength : t.line.length < lineMax)
    (hbyte : byte = carriageReturn ∨ byte = newline) :
    InputSpec t byte row before (LineDiscipline.complete { t with line := t.line ++ [newline] },
      [newline]) := by
  have hcompleted : completedBy byte t.line = [.line (t.line ++ [newline])] := if_pos hbyte
  have hbefore : beforeAfter byte t.line before = [] := if_pos (hbyte.imp_right .inl)
  refine ⟨rfl, lineMax_pos, ?_, ?_, fun _ => iff_of_true ?_ (.inr ?_)⟩
  · rw [hcompleted]
    rfl
  · rw [hcompleted]
    intro bytes hmem
    cases List.mem_singleton.mp hmem
    refine ⟨by simp, ?_⟩
    rw [List.length_append]
    exact hlength
  · -- the newline starts another row
    rw [hbefore]
    exact ⟨0, rfl⟩
  · rintro (⟨rfl | rfl, -⟩ | ⟨rfl, -⟩ | ⟨rfl, -⟩) <;> exact absurd hbyte (by decide)

theorem input_end (h : t.Measured) (hlength : t.line.length < lineMax) :
    InputSpec t controlD row before
      (if t.line = [] then ({ t with ready := t.ready ++ [.endOfFile] }, [])
        else (t.complete, [])) := by
  have hbefore : beforeAfter controlD t.line before = before ++ shown t.line := rfl
  have hstray : ¬ StrayErased controlD t.line := by
    rintro (⟨h | h, -⟩ | ⟨h, -⟩ | ⟨h, -⟩) <;> exact absurd h (by decide)
  by_cases hempty : t.line = []
  · have hcompleted : completedBy controlD t.line = [.endOfFile] := by
      rw [hempty]
      rfl
    rw [if_pos hempty]
    refine ⟨h, hlength, by rw [hcompleted]; rfl, by rw [hcompleted]; simp,
      fun hrow => iff_of_true ?_ (.inr hstray)⟩
    obtain ⟨k, rfl⟩ := hrow
    refine ⟨k, ?_⟩
    have hshown : shown t.line = [] := by
      rw [hempty]
      rfl
    change Row.after (before ++ shown t.line) k =
      Row.after (beforeAfter controlD t.line before ++ shown t.line) k
    rw [hbefore, hshown, List.append_nil, List.append_nil]
  · have hcompleted : completedBy controlD t.line = [.line t.line] := by
      rw [completedBy, if_neg (by decide), if_pos rfl, if_neg hempty]
    rw [if_neg hempty]
    refine ⟨rfl, lineMax_pos, by rw [hcompleted]; rfl, ?_, fun hrow => iff_of_true ?_ (.inr hstray)⟩
    · rw [hcompleted]
      intro bytes hmem
      cases List.mem_singleton.mp hmem
      exact ⟨hempty, hlength.le⟩
    · -- what was shown of the line is before the next one
      rw [hbefore]
      obtain ⟨k, rfl⟩ := hrow
      refine ⟨k, ?_⟩
      rw [show shown t.complete.line = [] from rfl, List.append_nil]
      rfl

theorem input_discard : InputSpec t controlC row before
    ({ t with line := [], widths := [] }, [0x5e, 0x43, newline]) := by
  refine ⟨rfl, lineMax_pos, ?_, (fun _ h => by cases h), fun _ => iff_of_true ⟨0, rfl⟩ (.inr ?_)⟩
  · exact (List.append_nil _).symm
  · rintro (⟨h | h, -⟩ | ⟨h, -⟩ | ⟨h, -⟩) <;> exact absurd h (by decide)

/-- A byte that does not erase. -/
structure Types (byte : UInt8) : Prop extends Edits byte where
  not_backspace : ¬ (byte = backspace ∨ byte = delete)
  not_eraseLine : byte ≠ controlU
  not_eraseWord : byte ≠ controlW

theorem Types.not_strayErased (h : Types byte) (line : List UInt8) : ¬ StrayErased byte line := by
  rintro (⟨hbyte, -⟩ | ⟨hbyte, -⟩ | ⟨hbyte, -⟩)
  · exact h.not_backspace hbyte
  · exact h.not_eraseLine hbyte
  · exact h.not_eraseWord hbyte

/-- Text goes behind the line, if there is room for it, and is echoed as its cells. -/
theorem input_text (hbyte : Types byte) (hroom : t.line.length < lineMax - 1)
    {widths : List ℕ} {cells : List UInt8} (hwidths : widths = addWidth (widthsOf t.line) byte)
    (hcells : ∀ text k, ∃ k', Row.print (Row.after (text ++ shown t.line) k) cells =
      Row.after (text ++ addCells (shown t.line) byte) k') :
    InputSpec t byte row before ({ t with line := t.line ++ [byte], widths }, cells) := by
  refine .of_edits hbyte.toEdits ?_ ?_ rfl
    fun hrow => iff_of_true ?_ (.inr (hbyte.not_strayErased _))
  · exact hwidths.trans (widthsOf_append _ _).symm
  · rw [List.length_append]
    exact Nat.add_lt_of_lt_sub hroom
  · obtain ⟨k, rfl⟩ := hrow
    obtain ⟨k', hprinted⟩ := hcells before k
    exact ⟨k', hprinted.trans (by rw [shown_append])⟩

theorem input_erase (h : t.Measured) (hlength : t.line.length < lineMax)
    (hbyte : byte = backspace ∨ byte = delete) :
    InputSpec t byte row before (if t.line = [] then (t, []) else t.eraseCharacter) := by
  have hedits : Edits byte := by
    obtain rfl | rfl := hbyte <;> exact ⟨by decide, by decide, by decide⟩
  have hstray : StrayErased byte t.line ↔ t.line ≠ [] ∧ ∀ byte ∈ t.line, IsContinuation byte := by
    refine ⟨?_, fun hline => .inl ⟨hbyte, hline⟩⟩
    rintro (⟨-, hline⟩ | ⟨rfl, -⟩ | ⟨rfl, -⟩)
    · exact hline
    · exact absurd hbyte (by decide)
    · exact absurd hbyte (by decide)
  by_cases hempty : t.line = []
  · rw [if_pos hempty]
    refine .of_edits hedits h hlength rfl fun hrow => iff_of_true hrow (.inr ?_)
    rw [hstray]
    exact fun hnonempty => hnonempty.1 hempty
  rw [if_neg hempty]
  obtain hline | ⟨front, start, tail, hline⟩ := line_cases t.line
  · obtain ⟨hleft, hshows⟩ := @erase_stray t before row h hline
    refine .of_edits hedits ?_ ?_ ?_ fun hrow => (hshows hrow).trans ?_
    · rw [hleft]
      rfl
    · rw [hleft]
      exact lineMax_pos
    · rw [hleft]
    · rw [hstray, or_iff_left (not_not_intro ⟨hempty, hline⟩)]
  · obtain ⟨hleft, hshows⟩ := @erase_character t before row front tail start h hline
    refine .of_edits hedits ?_ ?_ ?_ fun hrow => iff_of_true (hshows hrow) (.inr ?_)
    · rw [hleft]
      rfl
    · rw [hleft]
      refine lt_of_le_of_lt ?_ hlength
      rw [hline.eq, List.length_append]
      exact Nat.le_add_right _ _
    · rw [hleft]
    · rw [hstray]
      rintro ⟨-, hall⟩
      exact hline.start (hall start (by rw [hline.eq]; simp))

theorem input_eraseLine (h : t.Measured) (hlength : t.line.length < lineMax) :
    InputSpec t controlU row before (t.eraseWhile fun _ => true) := by
  obtain ⟨herased, hshows⟩ := eraseWhile_spec (fun _ => true) row before h
  have hedits : Edits controlU := ⟨by decide, by decide, by decide⟩
  refine .of_edits hedits herased.measured (herased.length.trans_lt hlength) herased.ready
    fun hrow => ?_
  have hstray : StrayErased controlU t.line ↔ Reached (fun _ => true) t.line := by
    refine ⟨?_, fun hreached => .inr (.inl ⟨rfl, hreached⟩)⟩
    rintro (⟨h | h, -⟩ | ⟨-, hreached⟩ | ⟨h, -⟩)
    · exact absurd h (by decide)
    · exact absurd h (by decide)
    · exact hreached
    · exact absurd h (by decide)
  rw [hshows hrow, hstray]

theorem input_eraseWord (h : t.Measured) (hlength : t.line.length < lineMax) :
    InputSpec t controlW row before
      (((t.eraseWhile (· = space)).1.eraseWhile (· ≠ space)).1,
        (t.eraseWhile (· = space)).2 ++ ((t.eraseWhile (· = space)).1.eraseWhile
          (· ≠ space)).2) := by
  have hedits : Edits controlW := ⟨by decide, by decide, by decide⟩
  obtain ⟨hspaces, hshows⟩ := eraseWhile_spec (· = space) row before h
  obtain ⟨hword, hshowsWord⟩ :=
    eraseWhile_spec (· ≠ space) (row.print (t.eraseWhile (· = space)).2) before
    hspaces.measured
  refine .of_edits hedits hword.measured ((hword.length.trans hspaces.length).trans_lt hlength)
    (hword.ready.trans hspaces.ready) fun hrow => ?_
  rw [Row.print_append]
  have hmiddle := (hshows hrow).mpr (.inr (not_reached_space _))
  have hstray : StrayErased controlW t.line ↔
    Reached (· ≠ space) (t.line.rdropWhile (· = space)) := by
    refine ⟨?_, fun hreached => .inr (.inr ⟨rfl, hreached⟩)⟩
    rintro (⟨h | h, -⟩ | ⟨h, -⟩ | ⟨-, hreached⟩)
    · exact absurd h (by decide)
    · exact absurd h (by decide)
    · exact absurd h (by decide)
    · exact hreached
  rw [hshowsWord hmiddle, line_eraseWhile_space, hstray]

theorem input_spec (h : t.Measured) (hlength : t.line.length < lineMax) :
    InputSpec t byte row before (t.input byte) := by
  rw [LineDiscipline.input]
  by_cases hreturn : byte = carriageReturn ∨ byte = newline
  · rw [if_pos hreturn]
    exact input_return hlength hreturn
  rw [if_neg hreturn]
  by_cases herase : byte = backspace ∨ byte = delete
  · rw [if_pos herase]
    exact input_erase h hlength herase
  rw [if_neg herase]
  by_cases hU : byte = controlU
  · rw [if_pos hU, hU]
    exact input_eraseLine h hlength
  rw [if_neg hU]
  by_cases hW : byte = controlW
  · rw [if_pos hW, hW]
    exact input_eraseWord h hlength
  rw [if_neg hW]
  by_cases hD : byte = controlD
  · rw [if_pos hD, hD]
    exact input_end h hlength
  rw [if_neg hD]
  by_cases hC : byte = controlC
  · rw [if_pos hC, hC]
    exact input_discard
  rw [if_neg hC]
  have htypes : Types byte := ⟨⟨hreturn, hC, hD⟩, herase, hU, hW⟩
  -- the byte is text, or is dropped
  by_cases htab : byte = tab ∧ t.line.length < lineMax - 1
  · rw [if_pos htab]
    obtain ⟨rfl, hroom⟩ := htab
    refine input_text htypes hroom ?_ fun text k => ?_
    · rw [LineDiscipline.column, h]
      rfl
    · rw [LineDiscipline.column, h, Row.print_blanks, ← length_shown, List.append_assoc]
      exact ⟨_, rfl⟩
  rw [if_neg htab]
  by_cases htext : 0x20 ≤ byte ∧ t.line.length < lineMax - 1
  · rw [if_pos htext]
    obtain ⟨hprintable, hroom⟩ := htext
    have hnotTab : byte ≠ tab := by
      rintro rfl
      exact absurd hprintable (by decide)
    refine input_text htypes hroom ?_ fun text k => ?_
    · rw [h, addWidth, if_neg hnotTab]
    · rw [addCells, if_neg hnotTab]
      split_ifs with hcontinues
      · exact ⟨k, Row.put_continuation hcontinues⟩
      · have hcell : Printable byte :=
          ⟨fun heq => hreturn (.inr heq), fun heq => herase (.inl heq), hcontinues⟩
        exact ⟨k - 1, (Row.put_after hcell).trans (by rw [List.append_assoc])⟩
  · rw [if_neg htext]
    exact .of_edits htypes.toEdits h hlength rfl fun hrow =>
      iff_of_true hrow (.inr (htypes.not_strayErased _))

/-! ## Reading -/

theorem left_append (completed : List Completed) (reads reads' : List (ℕ × List UInt8)) :
    left completed (reads ++ reads') = (left completed reads).bind (left · reads') := by
  induction reads generalizing completed with
  | nil => rw [List.nil_append, left]; rfl
  | cons read reads ih =>
    rw [List.cons_append]
    cases completed with
    | nil => rw [left, left]; rfl
    | cons first completed =>
      cases first with
      | endOfFile =>
        rw [left, left]
        split_ifs
        · exact ih completed
        · rfl
      | line bytes =>
        rw [left, left]
        split_ifs
        · exact ih completed
        · exact ih _
        · rfl

/-- What is completed later is read later. -/
theorem left_more {completed rest : List Completed} {reads : List (ℕ × List UInt8)}
    (h : left completed reads = some rest) (more : List Completed) :
    left (completed ++ more) reads = some (rest ++ more) := by
  induction reads generalizing completed with
  | nil =>
    rw [left] at h ⊢
    rw [Option.some.inj h]
  | cons read reads ih =>
    cases completed with
    | nil => rw [left] at h; cases h
    | cons first completed =>
      rw [List.cons_append]
      cases first with
      | endOfFile =>
        rw [left] at h ⊢
        split_ifs at h ⊢ with hchunk
        exact ih h
      | line bytes =>
        rw [left] at h ⊢
        split_ifs at h ⊢ with hchunk hall
        · exact ih h
        · exact ih h

/-- The chunks are the completed bytes up to what is left, byte for byte. -/
theorem flatten_chunks {completed rest : List Completed} {reads : List (ℕ × List UInt8)}
    (h : left completed reads = some rest) :
    (reads.map Prod.snd).flatten ++ rest.flatMap Completed.bytes =
      completed.flatMap Completed.bytes := by
  induction reads generalizing completed with
  | nil =>
    rw [left] at h
    rw [Option.some.inj h]
    rfl
  | cons read reads ih =>
    cases completed with
    | nil => rw [left] at h; cases h
    | cons first completed =>
      rw [List.map_cons, List.flatten_cons, List.append_assoc]
      cases first with
      | endOfFile =>
        rw [left] at h
        split_ifs at h with hchunk
        rw [ih h, hchunk]
        rfl
      | line bytes =>
        rw [left] at h
        split_ifs at h with hchunk hall
        · rw [ih h, hchunk, List.take_of_length_le hall]
          rfl
        · rw [ih h, hchunk, List.flatMap_cons, List.flatMap_cons, ← List.append_assoc]
          exact congrArg (· ++ _) (List.take_append_drop ..)

/-- A completed line or mark that is still to be read, or the rest of one. -/
def Record.completed : Record → Completed
  | .line bytes consumed => .line (bytes.drop consumed)
  | .endOfFile => .endOfFile

/-- Of a line that is still to be read there are bytes left. -/
def Record.Unread : Record → Prop
  | .line bytes consumed => consumed < bytes.length
  | .endOfFile => True

/-- `read` takes one chunk from the oldest record. -/
theorem read_spec (size : ℕ) (hready : ∀ record ∈ t.ready, record.Unread) :
    (∀ record ∈ (t.read size).1.ready, record.Unread) ∧
      (t.read size).1.line = t.line ∧ (t.read size).1.widths = t.widths ∧
        left (t.ready.map Record.completed) ((t.read size).2.map (size, ·)).toList =
          some ((t.read size).1.ready.map Record.completed) ∧
        ((t.read size).2 = none ↔ t.ready = []) := by
  obtain ⟨line, widths, ready⟩ := t
  cases ready with
  | nil => exact ⟨(fun _ h => by cases h), rfl, rfl, by simp [LineDiscipline.read, left],
    iff_of_true rfl rfl⟩
  | cons record ready =>
    have hrest := List.forall_mem_of_forall_mem_cons hready
    cases record with
    | endOfFile =>
      exact ⟨hrest, rfl, rfl, by simp [LineDiscipline.read, left, Record.completed],
        iff_of_false (fun h => by cases h) (fun h => by cases h)⟩
    | line bytes consumed =>
      have hunread : consumed < bytes.length := hready _ List.mem_cons_self
      have hlength : (bytes.drop consumed).length = bytes.length - consumed := List.length_drop
      have htake : (bytes.drop consumed).take (min (bytes.length - consumed) size) =
          (bytes.drop consumed).take size := by
        rw [← hlength, min_comm]
        exact List.take_eq_take_min.symm
      simp only [LineDiscipline.read, htake]
      by_cases hall : consumed + min (bytes.length - consumed) size = bytes.length
      · rw [if_pos hall]
        refine ⟨hrest, rfl, rfl, ?_, iff_of_false (by simp) (by simp)⟩
        change left (.line (bytes.drop consumed) :: _) [(size, _)] = _
        rw [left, if_pos rfl, if_pos (by omega), left]
      · have hsize : min (bytes.length - consumed) size = size := by omega
        rw [if_neg hall, hsize]
        refine ⟨?_, rfl, rfl, ?_, iff_of_false (by simp) (by simp)⟩
        · intro record hmem
          obtain rfl | hmem := List.mem_cons.mp hmem
          · change consumed + size < bytes.length
            omega
          · exact hrest record hmem
        · change left (.line (bytes.drop consumed) :: _) [(size, _)] = _
          rw [left, if_pos rfl, if_neg (by omega), List.drop_drop, left]
          rfl

/-! ## Sessions -/

namespace Session

/-- What holds of every session. -/
structure Inv (s : Session) : Prop where
  measured : s.tty.Measured
  line_length : s.tty.line.length < lineMax
  completed_length : ∀ bytes, .line bytes ∈ s.completed → bytes.length ≤ lineMax
  unread : ∀ record ∈ s.tty.ready, record.Unread
  reads : left s.completed s.reads = some (s.tty.ready.map Record.completed)

variable {s : Session}

theorem inv_start (prompt : List UInt8) : (start prompt).Inv where
  measured := rfl
  line_length := lineMax_pos
  completed_length := by rintro _ ⟨⟩
  unread := by rintro _ ⟨⟩
  reads := by simp [start, left, LineDiscipline.new]

theorem Inv.step (h : s.Inv) (event : Event) : (s.step event).Inv := by
  cases event with
  | input byte =>
    have hinput : InputSpec s.tty byte s.row s.before (s.tty.input byte) :=
      input_spec h.measured h.line_length
    refine ⟨hinput.measured, hinput.length, fun bytes hmem => ?_, fun record hmem => ?_, ?_⟩
    · obtain hmem | hmem := List.mem_append.mp hmem
      · exact h.completed_length bytes hmem
      · exact (hinput.completed bytes hmem).2
    · change record ∈ (s.tty.input byte).1.ready at hmem
      rw [hinput.ready, List.mem_append, List.mem_map] at hmem
      obtain hmem | ⟨completed, hmem, rfl⟩ := hmem
      · exact h.unread record hmem
      · cases completed with
        | line bytes => exact List.length_pos_of_ne_nil (hinput.completed bytes hmem).1
        | endOfFile => trivial
    · refine (left_more h.reads _).trans (congrArg some ?_)
      change _ = (s.tty.input byte).1.ready.map Record.completed
      have hfresh : Record.completed ∘ Completed.record = id :=
        funext fun completed => by cases completed <;> rfl
      rw [hinput.ready, List.map_append, List.map_map, hfresh, List.map_id]
  | read size =>
    obtain ⟨hunread, hline, hwidths, hread, -⟩ := read_spec size h.unread
    refine ⟨?_, ?_, h.completed_length, hunread, ?_⟩
    · exact hwidths.trans (h.measured.trans (congrArg widthsOf hline.symm))
    · exact hline ▸ h.line_length
    · change left s.completed (s.reads ++ ((s.tty.read size).2.map (size, ·)).toList) = _
      rw [left_append, h.reads]
      exact hread

theorem run_append (prompt : List UInt8) (events : List Event) (event : Event) :
    run prompt (events ++ [event]) = (run prompt events).step event := by
  rw [run, List.foldl_append]
  rfl

theorem inv_run (prompt : List UInt8) (events : List Event) : (run prompt events).Inv := by
  induction events using List.reverseRecOn with
  | nil => exact inv_start prompt
  | append_singleton events event ih =>
    rw [run_append]
    exact ih.step event

theorem shows_step (h : s.Inv) (hshows : s.Shows) (event : Event) :
    (s.step event).Shows ↔ ¬ s.Misses event := by
  cases event with
  | input byte =>
    have hinput : InputSpec s.tty byte s.row s.before (s.tty.input byte) :=
      input_spec h.measured h.line_length
    refine (hinput.echo hshows).trans ?_
    rw [← not_ne_iff, ← not_and_or]
    refine not_congr ⟨fun hmiss => ⟨byte, rfl, hmiss⟩, ?_⟩
    rintro ⟨_, heq, hmiss⟩
    cases heq
    exact hmiss
  | read size =>
    obtain ⟨-, hline, -⟩ := read_spec size h.unread
    refine iff_of_true ?_ fun ⟨_, heq, _⟩ => absurd heq (by simp)
    obtain ⟨k, hrow⟩ := hshows
    exact ⟨k, hrow.trans (by rw [← hline]; rfl)⟩

end Session

open Session

/-- The echo shows the line in every state, exactly if no erasure reaches bytes at the line's
beginning that continue a character, behind something else on the row. -/
theorem faithful_iff (prompt : List UInt8) (events : List Event) :
    Faithful prompt events ↔
      ∀ earlier event, earlier ++ [event] <+: events → ¬ (run prompt earlier).Misses event := by
  constructor
  · intro h earlier event hinitial
    have hearlier := h.shows earlier ((List.prefix_append _ _).trans hinitial)
    have hnext := h.shows _ hinitial
    rw [run_append] at hnext
    exact (shows_step (inv_run prompt earlier) hearlier event).mp hnext
  · intro h
    have hinv := inv_run prompt events
    refine ⟨fun earlier hinitial => ?_, hinv.line_length, hinv.completed_length,
      ⟨_, hinv.reads, flatten_chunks hinv.reads, fun size => ?_⟩⟩
    · -- induction on the events from the last one
      induction earlier using List.reverseRecOn with
      | nil => exact ⟨0, by simp [run, start, shown, LineDiscipline.new]⟩
      | append_singleton earlier event ih =>
        rw [run_append]
        have hearlier := ih ((List.prefix_append _ _).trans hinitial)
        exact (shows_step (inv_run prompt earlier) hearlier event).mpr (h earlier event hinitial)
    · rw [List.map_eq_nil_iff]
      exact (read_spec size hinv.unread).2.2.2.2

/-- After `a` and `^D` the line begins in the second column; a byte that continues no character is
put into it, and erasing it blanks the `a`. -/
theorem not_faithful : ¬ ∀ events, Faithful [] events := by
  intro h
  let events : List Event := [.input 0x61, .input controlD, .input 0x80, .input backspace]
  obtain ⟨k, hrow⟩ := (h events).shows events List.prefix_rfl
  have hblank : (run [] events).row = ⟨[blank], 0⟩ := by
    decide +kernel
  have hline : (run [] events).before ++ shown (run [] events).tty.line = [0x61] := by
    decide +kernel
  rw [hline, hblank] at hrow
  cases congrArg Row.column hrow

end SaeOS.Tty
