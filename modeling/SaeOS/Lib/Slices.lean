import Mathlib.Data.List.DropRight
import SaeOS.Lib.Text

/-!
# Slices of text

Text is cut at byte offsets, and a cut that is not between two characters does not exist. A search by
`char_indices` finds only offsets where it does, and the rest of this file is what cuts words out of a text:
whitespace, prefixes and suffixes.
-/

namespace Text

/-! ## Byte offsets -/

/-- `len`, in bytes. -/
def byteLength (text : Text) : ℕ :=
  (text.map Char.utf8Size).sum

/-- `char_indices`, of text that starts at an offset. -/
def charIndices (offset : ℕ) : Text → List (ℕ × Char)
  | [] => []
  | character :: rest => (offset, character) :: charIndices (offset + character.utf8Size) rest

/-- `split_at`; none where the offset is not between two characters. -/
def splitAtByte : Text → ℕ → Option (Text × Text)
  | text, 0 => some ([], text)
  | [], _ + 1 => none
  | character :: rest, offset + 1 =>
    if offset + 1 < character.utf8Size then none
    else (splitAtByte rest (offset + 1 - character.utf8Size)).map fun halves => (character :: halves.1, halves.2)

variable {text before after : Text} {character : Char}

@[simp]
theorem byteLength_cons (character : Char) (text : Text) :
    byteLength (character :: text) = character.utf8Size + byteLength text :=
  List.sum_cons

/-- Between two parts of a text it can be cut. -/
theorem splitAtByte_append (before after : Text) :
    splitAtByte (before ++ after) (byteLength before) = some (before, after) := by
  induction before with
  | nil => cases after <;> rfl
  | cons character before ih =>
    have hpos := character.utf8Size_pos
    obtain ⟨offset, hoffset⟩ := Nat.exists_eq_succ_of_ne_zero
      (show byteLength (character :: before) ≠ 0 by rw [byteLength_cons]; omega)
    have hrest : offset + 1 - character.utf8Size = byteLength before := by
      rw [byteLength_cons] at hoffset
      omega
    have hle : ¬ offset + 1 < character.utf8Size := by
      rw [byteLength_cons] at hoffset
      omega
    rw [hoffset, List.cons_append, splitAtByte, if_neg hle, hrest, ih]
    rfl

/-! ## Whitespace -/

/-- `char::is_whitespace`. -/
def isWhitespace (character : Char) : Bool :=
  let code := character.toNat
  (9 ≤ code ∧ code ≤ 13) ∨ code = 0x20 ∨ code = 0x85 ∨ code = 0xa0 ∨ code = 0x1680 ∨
    (0x2000 ≤ code ∧ code ≤ 0x200a) ∨ code = 0x2028 ∨ code = 0x2029 ∨ code = 0x202f ∨ code = 0x205f ∨
    code = 0x3000

def trimStart (text : Text) : Text :=
  text.dropWhile isWhitespace

def trim (text : Text) : Text :=
  (trimStart text).rdropWhile isWhitespace

def splitWhitespace (text : Text) : List Text :=
  (text.splitOnP isWhitespace).filter (· ≠ [])

/-- Nothing but whitespace. -/
def Blank (text : Text) : Prop :=
  ∀ character ∈ text, isWhitespace character = true

/-- Text without whitespace. -/
def Solid (text : Text) : Prop :=
  text ≠ [] ∧ ∀ character ∈ text, isWhitespace character = false

theorem splitWhitespace_blank (h : Blank text) : splitWhitespace text = [] := by
  induction text with
  | nil => rfl
  | cons character text ih =>
    have hrest := ih fun other hmem => h other (List.mem_cons_of_mem _ hmem)
    have hsplit := List.splitOnP_append_cons [] text (h character List.mem_cons_self)
    rw [List.nil_append] at hsplit
    rw [splitWhitespace, hsplit, List.splitOnP_nil, List.filter_append]
    exact hrest

/-- At a whitespace, the words before it and those behind it are independent. -/
theorem splitWhitespace_append_cons (h : isWhitespace character = true) (before after : Text) :
    splitWhitespace (before ++ character :: after) = splitWhitespace before ++ splitWhitespace after := by
  rw [splitWhitespace, List.splitOnP_append_cons before after h, List.filter_append]
  rfl

theorem splitWhitespace_solid (h : Solid text) : splitWhitespace text = [text] := by
  rw [splitWhitespace, List.splitOnP_eq_single h.2]
  simp [h.1]

/-- Blanks before a text make no words. -/
theorem splitWhitespace_append_left (h : Blank before) (after : Text) :
    splitWhitespace (before ++ after) = splitWhitespace after := by
  induction before with
  | nil => rfl
  | cons character before ih =>
    have hfirst := splitWhitespace_append_cons (h character List.mem_cons_self) [] (before ++ after)
    rw [List.nil_append] at hfirst
    rw [List.cons_append, hfirst, ih fun other hmem => h other (List.mem_cons_of_mem _ hmem)]
    rfl

/-- Nor do blanks behind it. -/
theorem splitWhitespace_append_right (h : Blank after) (before : Text) :
    splitWhitespace (before ++ after) = splitWhitespace before := by
  cases after with
  | nil => rw [List.append_nil]
  | cons character after =>
    rw [splitWhitespace_append_cons (h character List.mem_cons_self),
      splitWhitespace_blank fun other hmem => h other (List.mem_cons_of_mem _ hmem), List.append_nil]

@[simp]
theorem splitWhitespace_trim (text : Text) : splitWhitespace (trim text) = splitWhitespace text := by
  have hstart : splitWhitespace (trimStart text) = splitWhitespace text := by
    conv_rhs => rw [← List.takeWhile_append_dropWhile (p := isWhitespace) (l := text)]
    exact (splitWhitespace_append_left (fun _ => List.mem_takeWhile_imp) _).symm
  rw [← hstart, trim]
  conv_rhs => rw [← List.rdropWhile_append_rtakeWhile (p := isWhitespace) (l := trimStart text)]
  refine (splitWhitespace_append_right (fun character hmem => ?_) _).symm
  rw [List.rtakeWhile, List.mem_reverse] at hmem
  exact List.mem_takeWhile_imp hmem

theorem trimStart_append (h : Blank before) (after : Text) : trimStart (before ++ after) = trimStart after :=
  List.dropWhile_append_of_pos h

theorem trimStart_of_solid (h : isWhitespace character = false) (text : Text) :
    trimStart (character :: text) = character :: text :=
  List.dropWhile_cons_of_neg (by rw [h]; decide)

/-! ## Parts -/

/-- `strip_prefix` of one character. -/
def stripPrefix (character : Char) : Text → Option Text
  | [] => none
  | first :: rest => if first = character then some rest else none

/-- `strip_suffix` of one character. -/
def stripSuffix (character : Char) (text : Text) : Option Text :=
  if text.getLast? = some character then some text.dropLast else none

/-- `split_once` at one character. -/
def splitOnce (character : Char) : Text → Option (Text × Text)
  | [] => none
  | first :: rest =>
    if first = character then some ([], rest)
    else (splitOnce character rest).map fun halves => (first :: halves.1, halves.2)

@[simp]
theorem stripPrefix_cons (character : Char) (text : Text) : stripPrefix character (character :: text) = some text :=
  if_pos rfl

theorem stripPrefix_of_not_mem (h : character ∉ text) : stripPrefix character text = none := by
  cases text with
  | nil => rfl
  | cons first rest => exact if_neg (List.ne_of_not_mem_cons h).symm

@[simp]
theorem stripSuffix_concat (character : Char) (text : Text) :
    stripSuffix character (text ++ [character]) = some text := by
  rw [stripSuffix, if_pos List.getLast?_concat, List.dropLast_concat]

theorem stripSuffix_of_not_mem (h : character ∉ text) : stripSuffix character text = none :=
  if_neg fun hlast => h (List.mem_of_getLast? hlast)

theorem splitOnce_append (h : character ∉ before) (after : Text) :
    splitOnce character (before ++ character :: after) = some (before, after) := by
  induction before with
  | nil => exact if_pos rfl
  | cons first before ih =>
    obtain ⟨hfirst, hrest⟩ := List.ne_and_not_mem_of_not_mem_cons h
    rw [List.cons_append, splitOnce, if_neg hfirst.symm, ih hrest]
    rfl

theorem splitOnce_of_not_mem (h : character ∉ text) : splitOnce character text = none := by
  induction text with
  | nil => rfl
  | cons first text ih =>
    obtain ⟨hfirst, hrest⟩ := List.ne_and_not_mem_of_not_mem_cons h
    rw [splitOnce, if_neg hfirst.symm, ih hrest]
    rfl

end Text
