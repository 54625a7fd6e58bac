import SaeOS.Lib.Slices

/-!
# The kernel command line

`cmdline.rs`: words end at whitespace outside double quotes, each is a flag or a key with a value, and the
words behind `--` are the arguments of init. What was written as a list of words is read as that list.
-/

namespace SaeOS.Cmdline

open Text

def maxParams : ℕ := 64

abbrev Param := Text × Option Text

structure Params where
  raw : Text
  /-- The used part of the array. -/
  params : List Param
  dropped : ℕ
  initArgs : Text
  le : params.length ≤ maxParams

/-- Strip one pair of surrounding double quotes (or a lone leading one). -/
def unquote (text : Text) : Text :=
  let text := (stripPrefix '"' text).getD text
  (stripSuffix '"' text).getD text

/-- The offset of the first whitespace outside double quotes. -/
def wordEnd (quoted : Bool) : List (ℕ × Char) → Option ℕ
  | [] => none
  | (index, character) :: rest =>
    let quoted := if character = '"' then !quoted else quoted
    if isWhitespace character && !quoted then some index else wordEnd quoted rest

/-- A word ends at whitespace outside double quotes. -/
def wordLength (text : Text) : ℕ :=
  (wordEnd false (charIndices 0 text)).getD (byteLength text)

/-- `"key=value"` and `key="value"` both mean key=value. -/
def paramOf (word : Text) : Param :=
  let word := match stripPrefix '"' word with
    | none => word
    | some inner => (stripSuffix '"' inner).getD inner
  match splitOnce '=' word with
  | some (key, value) => (key, some (unquote value))
  | none => (word, none)

/-- A parameter is recorded, dropped when there are too many, or skipped when it has no key. -/
def Params.add (params : Params) (param : Param) : Params :=
  if param.1 = [] then params
  else if h : params.params.length = maxParams then { params with dropped := params.dropped + 1 }
  else
    { params with
      params := params.params ++ [param]
      le := by
        have hle := params.le
        rw [List.length_append, List.length_singleton]
        omega }

/-! ## Words -/

/-- The text up to the first whitespace outside double quotes, and the text from there. -/
def cutWord (quoted : Bool) : Text → Text × Text
  | [] => ([], [])
  | character :: rest =>
    let quoted := if character = '"' then !quoted else quoted
    if isWhitespace character && !quoted then ([], character :: rest)
    else ((cutWord quoted rest).1.cons character, (cutWord quoted rest).2)

variable {quoted : Bool} {text tail word : Text} {character : Char}

theorem cutWord_append (quoted : Bool) (text : Text) : (cutWord quoted text).1 ++ (cutWord quoted text).2 = text := by
  induction text generalizing quoted with
  | nil => rfl
  | cons character text ih =>
    unfold cutWord
    dsimp only
    split_ifs
    · rfl
    · exact congrArg (List.cons character) (ih _)
    · rfl
    · exact congrArg (List.cons character) (ih _)

/-- The word ends at the offset that the search finds. -/
theorem wordEnd_charIndices (quoted : Bool) (offset : ℕ) (text : Text) :
    (wordEnd quoted (charIndices offset text)).getD (offset + byteLength text) =
      offset + byteLength (cutWord quoted text).1 := by
  induction text generalizing quoted offset with
  | nil => rfl
  | cons character text ih =>
    unfold charIndices wordEnd cutWord
    dsimp only
    generalize (if character = '"' then !quoted else quoted) = quoted
    by_cases hend : (isWhitespace character && !quoted) = true
    · rw [if_pos hend, if_pos hend]
      rfl
    · rw [if_neg hend, if_neg hend, byteLength_cons, byteLength_cons, ← Nat.add_assoc, ih, Nat.add_assoc]

/-- So the cut is between two characters, whatever their bytes. -/
theorem splitAtByte_wordLength (text : Text) :
    splitAtByte text (wordLength text) = some (cutWord false text) := by
  have hend := wordEnd_charIndices false 0 text
  rw [Nat.zero_add, Nat.zero_add] at hend
  have hcut := splitAtByte_append (cutWord false text).1 (cutWord false text).2
  rw [cutWord_append] at hcut
  rw [wordLength, hend, hcut]

theorem cutWord_cons (h : isWhitespace character = false) (quoted : Bool) (text : Text) :
    cutWord quoted (character :: text) =
      (character :: (cutWord (if character = '"' then !quoted else quoted) text).1,
        (cutWord (if character = '"' then !quoted else quoted) text).2) := by
  rw [cutWord]
  simp only [h, Bool.false_and, Bool.false_eq_true, if_false]

/-- A word has at least one character. -/
theorem length_cutWord {others : Text} (h : trimStart text = character :: others) :
    (cutWord false (character :: others)).2.length < text.length := by
  have hsolid : isWhitespace character = false := by
    have hhead := List.head?_dropWhile_not isWhitespace text
    rw [show text.dropWhile isWhitespace = character :: others from h] at hhead
    simpa using hhead
  have htrim := (List.dropWhile_sublist (l := text) isWhitespace).length_le
  rw [show text.dropWhile isWhitespace = character :: others from h, List.length_cons] at htrim
  have happend := congrArg List.length (cutWord_append (if character = '"' then !false else false) others)
  rw [List.length_append] at happend
  rw [cutWord_cons hsolid]
  dsimp only
  omega

/-! ## Parsing -/

/-- The loop over the words; none would be a cut inside a character. -/
def parseWords (params : Params) (text : Text) : Option Params :=
  match _ : trimStart text with
  | [] => some params
  | first :: others =>
    match _ : splitAtByte (first :: others) (wordLength (first :: others)) with
    | none => none
    | some (word, tail) =>
      if word = ['-', '-'] then some { params with initArgs := trim tail }
      else parseWords (params.add (paramOf word)) tail
termination_by text.length
decreasing_by
  rename_i hword _
  rw [splitAtByte_wordLength] at hword
  obtain rfl : (cutWord false (first :: others)).2 = tail := congrArg Prod.snd (Option.some.inj hword)
  exact length_cutWord ‹_›

def parse (raw : Text) : Option Params :=
  parseWords ⟨raw, [], 0, [], Nat.zero_le _⟩ raw

/-- The last value given for `key`. -/
def Params.get (params : Params) (key : Text) : Option Text :=
  ((params.params.filter fun param => param.1 = key).filterMap Prod.snd).getLast?

/-- True if `name` appears as a bare flag. -/
def Params.flag (params : Params) (name : Text) : Bool :=
  params.params.any fun param => param = (name, none)

/-- The words after `--`. -/
def Params.initArgWords (params : Params) : List Text :=
  splitWhitespace params.initArgs

/-! ## Written command lines -/

/-- What a flag or a key can be called. -/
structure Name where
  text : Text
  ne_nil : text ≠ []
  ne_dashes : text ≠ ['-', '-']
  plain : ∀ character ∈ text, isWhitespace character = false ∧ character ≠ '=' ∧ character ≠ '"'

/-- A value is any text without double quotes. -/
structure Value where
  text : Text
  plain : '"' ∉ text

inductive Item where
  | flag (name : Name)
  /-- `key="value"` -/
  | pair (key : Name) (value : Value)
  /-- `"key=value"` -/
  | quoted (key : Name) (value : Value)

/-- The words behind `--`. -/
structure Argument where
  text : Text
  solid : Solid text

namespace Item

def render : Item → Text
  | .flag name => name.text
  | .pair key value => key.text ++ '=' :: '"' :: (value.text ++ ['"'])
  | .quoted key value => '"' :: (key.text ++ '=' :: (value.text ++ ['"']))

def param : Item → Param
  | .flag name => (name.text, none)
  | .pair key value | .quoted key value => (key.text, some value.text)

end Item

/-- Words with whitespace between them, and any before and behind them. -/
inductive Spaced : List Text → Text → Prop
  | nil {gap : Text} (hgap : Blank gap) : Spaced [] gap
  | cons {gap word text : Text} {words : List Text} (hgap : Blank gap)
    (hsep : ∀ character ∈ text.head?, isWhitespace character = true) (htext : Spaced words text) :
    Spaced (word :: words) (gap ++ (word ++ text))

/-! ### One word -/

theorem cutWord_sep (hsep : ∀ character ∈ text.head?, isWhitespace character = true) :
    cutWord false text = ([], text) := by
  cases text with
  | nil => rfl
  | cons character text =>
    have hspace := hsep character rfl
    have hquote : character ≠ '"' := by
      rintro rfl
      exact absurd hspace (by decide)
    rw [cutWord]
    simp only [if_neg hquote, hspace, Bool.not_false, Bool.and_self, if_true]

/-- Outside quotes a word goes on up to a whitespace or a quote. -/
theorem cutWord_plain {plain : Text} (h : ∀ character ∈ plain, isWhitespace character = false ∧ character ≠ '"')
    (text : Text) : cutWord false (plain ++ text) = (plain ++ (cutWord false text).1, (cutWord false text).2) := by
  induction plain with
  | nil => rfl
  | cons character plain ih =>
    obtain ⟨hspace, hquote⟩ := h character List.mem_cons_self
    rw [List.cons_append, cutWord_cons hspace, if_neg hquote, ih fun other hmem => h other (List.mem_cons_of_mem _ hmem)]
    rfl

/-- Inside quotes it goes on up to the next quote. -/
theorem cutWord_quoted {inner : Text} (h : '"' ∉ inner) (text : Text) :
    cutWord true (inner ++ text) = (inner ++ (cutWord true text).1, (cutWord true text).2) := by
  induction inner with
  | nil => rfl
  | cons character inner ih =>
    obtain ⟨hquote, hinner⟩ := List.ne_and_not_mem_of_not_mem_cons h
    rw [List.cons_append, cutWord]
    simp only [if_neg hquote.symm, Bool.not_true, Bool.and_false, Bool.false_eq_true, if_false, ih hinner]
    rfl

theorem cutWord_quote (quoted : Bool) (text : Text) :
    cutWord quoted ('"' :: text) = ('"' :: (cutWord (!quoted) text).1, (cutWord (!quoted) text).2) :=
  cutWord_cons (by decide) quoted text

theorem Name.cutWord_append (name : Name) (text : Text) :
    cutWord false (name.text ++ text) = (name.text ++ (cutWord false text).1, (cutWord false text).2) :=
  cutWord_plain (fun character hmem => ⟨(name.plain character hmem).1, (name.plain character hmem).2.2⟩) text

theorem cutWord_equals (quoted : Bool) (text : Text) :
    cutWord quoted ('=' :: text) = ('=' :: (cutWord quoted text).1, (cutWord quoted text).2) :=
  cutWord_cons (by decide) quoted text

/-- A written item is one word. -/
theorem Item.cutWord_render (item : Item) (hsep : ∀ character ∈ text.head?, isWhitespace character = true) :
    cutWord false (item.render ++ text) = (item.render, text) := by
  cases item with
  | flag name => rw [render, name.cutWord_append, cutWord_sep hsep, List.append_nil]
  | pair key value =>
    rw [render, List.append_assoc, key.cutWord_append, List.cons_append, List.cons_append, List.append_assoc,
      cutWord_equals, cutWord_quote, Bool.not_false, cutWord_quoted value.plain, List.singleton_append,
      cutWord_quote, Bool.not_true, cutWord_sep hsep]
  | quoted key value =>
    have hkey : '"' ∉ key.text := fun hmem => (key.plain _ hmem).2.2 rfl
    rw [render, List.cons_append, List.append_assoc, cutWord_quote, Bool.not_false, cutWord_quoted hkey,
      List.cons_append, List.append_assoc, cutWord_equals, cutWord_quoted value.plain, List.singleton_append,
      cutWord_quote, Bool.not_true, cutWord_sep hsep]

theorem Name.not_mem_equals (name : Name) : '=' ∉ name.text :=
  fun hmem => (name.plain _ hmem).2.1 rfl

theorem Name.not_mem_quote (name : Name) : '"' ∉ name.text :=
  fun hmem => (name.plain _ hmem).2.2 rfl

theorem unquote_quotes (value : Value) : unquote ('"' :: (value.text ++ ['"'])) = value.text := by
  rw [unquote, stripPrefix_cons, Option.getD_some, stripSuffix_concat, Option.getD_some]

theorem unquote_plain (value : Value) : unquote value.text = value.text := by
  rw [unquote, stripPrefix_of_not_mem value.plain, Option.getD_none, stripSuffix_of_not_mem value.plain,
    Option.getD_none]

/-- Its quotes come off, and it is split where the key ends. -/
theorem Item.paramOf_render (item : Item) : paramOf item.render = item.param := by
  cases item with
  | flag name =>
    rw [paramOf, render, stripPrefix_of_not_mem name.not_mem_quote]
    dsimp only
    rw [splitOnce_of_not_mem name.not_mem_equals]
    rfl
  | pair key value =>
    have hquote : stripPrefix '"' (key.text ++ '=' :: '"' :: (value.text ++ ['"'])) = none := by
      obtain ⟨first, rest, hkey⟩ := List.exists_cons_of_ne_nil key.ne_nil
      rw [hkey]
      refine if_neg fun heq => key.not_mem_quote ?_
      rw [hkey, ← heq]
      exact List.mem_cons_self
    rw [paramOf, render, hquote]
    dsimp only
    rw [splitOnce_append key.not_mem_equals]
    dsimp only
    rw [unquote_quotes]
    rfl
  | quoted key value =>
    rw [paramOf, render, stripPrefix_cons]
    dsimp only
    rw [← List.cons_append, ← List.append_assoc, stripSuffix_concat, Option.getD_some,
      splitOnce_append key.not_mem_equals]
    dsimp only
    rw [unquote_plain]
    rfl

/-! ### The whole line -/

theorem parseWords_blank (params : Params) (h : Blank text) : parseWords params text = some params := by
  have htrim : trimStart text = [] := List.dropWhile_eq_nil_iff.mpr h
  rw [parseWords]
  split
  · rfl
  · rename_i hcons
    rw [htrim] at hcons
    cases hcons

/-- The loop takes the first word. -/
theorem parseWords_word (params : Params) {gap : Text} (hgap : Blank gap) (hword : word ≠ [])
    (hfirst : ∀ character ∈ word.head?, isWhitespace character = false)
    (hcut : cutWord false (word ++ text) = (word, text)) :
    parseWords params (gap ++ (word ++ text)) =
      if word = ['-', '-'] then some { params with initArgs := trim text }
      else parseWords (params.add (paramOf word)) text := by
  obtain ⟨first, others, rfl⟩ := List.exists_cons_of_ne_nil hword
  have htrim : trimStart (gap ++ ((first :: others) ++ text)) = first :: (others ++ text) := by
    rw [trimStart_append hgap, List.cons_append, trimStart_of_solid (hfirst first rfl)]
  have hsplit := splitAtByte_wordLength ((first :: others) ++ text)
  rw [hcut] at hsplit
  rw [parseWords]
  split
  · rename_i hnil
    rw [htrim] at hnil
    cases hnil
  · rename_i first' others' hcons
    rw [htrim] at hcons
    obtain ⟨rfl, rfl⟩ := List.cons.inj hcons
    split
    · rename_i hnone
      cases hnone.symm.trans hsplit
    · rename_i hsome
      obtain ⟨rfl, rfl⟩ := Prod.mk.inj (Option.some.inj (hsome.symm.trans hsplit))
      rfl

theorem Name.head_solid (name : Name) : ∀ character ∈ name.text.head?, isWhitespace character = false :=
  fun character hmem => (name.plain character (List.mem_of_mem_head? hmem)).1

theorem Item.render_first (item : Item) :
    item.render ≠ [] ∧ ∀ character ∈ item.render.head?, isWhitespace character = false := by
  have hkey (key : Name) (text : Text) :
      key.text ++ text ≠ [] ∧ ∀ character ∈ (key.text ++ text).head?, isWhitespace character = false := by
    have hhead := key.head_solid
    obtain ⟨first, others, heq⟩ := List.exists_cons_of_ne_nil key.ne_nil
    rw [heq] at hhead ⊢
    exact ⟨List.cons_ne_nil _ _, hhead⟩
  cases item with
  | flag name => exact ⟨name.ne_nil, name.head_solid⟩
  | pair key value => exact hkey key _
  | quoted key value =>
    refine ⟨List.cons_ne_nil _ _, fun character hmem => ?_⟩
    obtain rfl := Option.some.inj hmem
    decide

theorem Item.render_ne_dashes (item : Item) : item.render ≠ ['-', '-'] := by
  cases item with
  | flag name => exact name.ne_dashes
  | pair key value =>
    intro heq
    have hmem : '=' ∈ (Item.pair key value).render := List.mem_append_right _ List.mem_cons_self
    rw [heq] at hmem
    exact absurd hmem (by decide)
  | quoted key value =>
    intro heq
    exact absurd (List.cons.inj heq).1 (by decide)

/-- Item by item, the loop records what the items stand for. -/
theorem parseWords_items (params : Params) (items : List Item) {words : List Text}
    (h : Spaced (items.map Item.render ++ words) text) :
    ∃ tail, Spaced words tail ∧
      parseWords params text = parseWords (items.foldl (fun params item => params.add item.param) params) tail := by
  induction items generalizing params text with
  | nil => exact ⟨text, h, rfl⟩
  | cons item items ih =>
    cases h with
    | cons hgap hsep htext =>
      obtain ⟨hne, hfirst⟩ := item.render_first
      obtain ⟨tail, htail, heq⟩ := ih (params.add item.param) htext
      refine ⟨tail, htail, ?_⟩
      rw [parseWords_word params hgap hne hfirst (item.cutWord_render hsep), if_neg item.render_ne_dashes,
        item.paramOf_render, heq]
      rfl

theorem splitWhitespace_spaced {arguments : List Argument} (h : Spaced (arguments.map Argument.text) text) :
    splitWhitespace text = arguments.map Argument.text := by
  induction arguments generalizing text with
  | nil =>
    cases h with
    | nil hgap => exact splitWhitespace_blank hgap
  | cons argument arguments ih =>
    cases h with
    | @cons gap _ text _ hgap hsep htext =>
      rw [splitWhitespace_append_left hgap]
      have hrest := ih htext
      cases text with
      | nil =>
        rw [List.append_nil, splitWhitespace_solid argument.solid, List.map_cons, ← hrest]
        rfl
      | cons space text =>
        have hspace := hsep space rfl
        have hskip := splitWhitespace_append_cons hspace [] text
        rw [List.nil_append] at hskip
        rw [splitWhitespace_append_cons hspace, splitWhitespace_solid argument.solid, List.map_cons, ← hrest, hskip]
        rfl

/-! ### What is recorded -/

theorem Item.param_ne (item : Item) : item.param.1 ≠ [] := by
  cases item with
  | flag name => exact name.ne_nil
  | pair key value => exact key.ne_nil
  | quoted key value => exact key.ne_nil

/-- The first ones are recorded, and the rest is counted. -/
theorem add_items (params : Params) (items : List Item) :
    let result := items.foldl (fun params item => params.add item.param) params
    result.params = (params.params ++ items.map Item.param).take maxParams ∧
      result.dropped = params.dropped + (params.params.length + items.length - maxParams) ∧
        result.initArgs = params.initArgs := by
  induction items generalizing params with
  | nil =>
    have hle := params.le
    refine ⟨?_, ?_, rfl⟩
    · rw [List.map_nil, List.append_nil]
      exact (List.take_of_length_le hle).symm
    · change params.dropped = params.dropped + (params.params.length + 0 - maxParams)
      omega
  | cons item items ih =>
    have hle := params.le
    obtain ⟨hparams, hdropped, hargs⟩ := ih (params.add item.param)
    refine ⟨hparams.trans ?_, hdropped.trans ?_, hargs.trans ?_⟩
    all_goals
      unfold Params.add
      rw [if_neg item.param_ne]
      split_ifs with hfull
    · -- the array is full
      rw [List.take_append_of_le_length hfull.ge, List.take_append_of_le_length hfull.ge]
    · rw [List.append_assoc]
      rfl
    · dsimp only
      rw [List.length_cons]
      omega
    · dsimp only
      rw [List.length_append, List.length_singleton, List.length_cons]
      congr 2
      omega
    · rfl
    · rfl

/-- The value that a parameter gives for a key. -/
def valueFor (key : Text) (param : Param) : Option Text :=
  if param.1 = key then param.2 else none

theorem valueFor_eq_some_iff {key value : Text} {param : Param} :
    valueFor key param = some value ↔ param = (key, some value) := by
  obtain ⟨name, given⟩ := param
  rw [valueFor, Option.ite_none_right_eq_some, Prod.mk.injEq]

theorem valueFor_eq_none_iff (key : Text) (recorded : List Param) :
    (∀ param ∈ recorded, valueFor key param = none) ↔ ∀ value, (key, some value) ∉ recorded := by
  constructor
  · intro h value hmem
    exact Option.some_ne_none _ ((valueFor_eq_some_iff.mpr rfl).symm.trans (h _ hmem))
  · intro h param hmem
    refine Option.eq_none_iff_forall_ne_some.mpr fun value hvalue => ?_
    rw [valueFor_eq_some_iff.mp hvalue] at hmem
    exact h value hmem

theorem get_eq (params : Params) (key : Text) : params.get key = params.params.reverse.findSome? (valueFor key) := by
  rw [Params.get, List.filterMap_filter, List.getLast?_filterMap]
  refine congrArg (List.findSome? · _) (funext fun param => ?_)
  simp only [decide_eq_true_iff, valueFor]

/-- `get` finds a value that no other one of the key follows. -/
theorem get_eq_some_iff (params : Params) (key value : Text) :
    params.get key = some value ↔ ∃ before after, params.params = before ++ (key, some value) :: after ∧
      ∀ other, (key, some other) ∉ after := by
  rw [get_eq, List.findSome?_eq_some_iff]
  constructor
  · rintro ⟨after, param, before, heq, hvalue, hafter⟩
    obtain rfl := valueFor_eq_some_iff.mp hvalue
    have hparams := congrArg List.reverse heq
    rw [List.reverse_reverse, List.reverse_append, List.reverse_cons, List.append_assoc, List.singleton_append]
      at hparams
    refine ⟨before.reverse, after.reverse, hparams, (valueFor_eq_none_iff key _).mp fun param hmem => ?_⟩
    exact hafter param (List.mem_reverse.mp hmem)
  · rintro ⟨before, after, heq, hafter⟩
    refine ⟨after.reverse, (key, some value), before.reverse, ?_, valueFor_eq_some_iff.mpr rfl, fun param hmem => ?_⟩
    · rw [heq, List.reverse_append, List.reverse_cons, List.append_assoc, List.singleton_append]
    · exact (valueFor_eq_none_iff key after).mpr hafter param (List.mem_reverse.mp hmem)

theorem get_eq_none_iff (params : Params) (key : Text) :
    params.get key = none ↔ ∀ value, (key, some value) ∉ params.params := by
  rw [get_eq, List.findSome?_eq_none_iff, ← valueFor_eq_none_iff]
  exact forall_congr' fun param => by rw [List.mem_reverse]

theorem flag_iff (params : Params) (name : Text) : params.flag name = true ↔ (name, none) ∈ params.params := by
  simp only [Params.flag, List.any_eq_true, decide_eq_true_iff, exists_eq_right]

/-- Every text is parsed. -/
theorem parseWords_isSome (params : Params) (text : Text) : ∃ result, parseWords params text = some result := by
  fun_induction parseWords params text with
  | case1 => exact ⟨_, rfl⟩
  | case2 _ _ _ _ _ hnone => cases hnone.symm.trans (splitAtByte_wordLength _)
  | case3 => exact ⟨_, rfl⟩
  | case4 _ _ _ _ _ _ _ _ _ ih => exact ih

/-- **The command line is read as it was written.** Every text is parsed. Items with whitespace between them,
and `--` with arguments behind them or not, give the first 64 items as parameters, the number of the others, and
the arguments; a key has the last value that is recorded for it, and the flags are the recorded ones. -/
theorem parse_written :
    (∀ text, ∃ params, parse text = some params) ∧
    ∀ (items : List Item) (arguments : Option (List Argument)) (text : Text),
      Spaced (items.map Item.render ++ arguments.elim [] fun arguments =>
        ['-', '-'] :: arguments.map Argument.text) text →
      ∃ params, parse text = some params ∧
        params.params = (items.take maxParams).map Item.param ∧
        params.dropped = items.length - maxParams ∧
        params.initArgWords = (arguments.getD []).map Argument.text ∧
        (∀ key value, params.get key = some value ↔
          ∃ before after, (items.take maxParams).map Item.param = before ++ (key, some value) :: after ∧
            ∀ other, (key, some other) ∉ after) ∧
        (∀ key, params.get key = none ↔ ∀ value, (key, some value) ∉ (items.take maxParams).map Item.param) ∧
        ∀ name, params.flag name = true ↔ ∃ flag : Name, flag.text = name ∧ .flag flag ∈ items.take maxParams := by
  refine ⟨fun text => parseWords_isSome _ text, fun items arguments text h => ?_⟩
  obtain ⟨tail, htail, hitems⟩ := parseWords_items ⟨text, [], 0, [], Nat.zero_le _⟩ items h
  obtain ⟨hparams, hdropped, hargs⟩ := add_items ⟨text, [], 0, [], Nat.zero_le _⟩ items
  generalize items.foldl (fun params item => Params.add params item.param) ⟨text, [], 0, [], Nat.zero_le _⟩ = recorded
    at hitems hparams hdropped hargs
  simp only [List.nil_append, ← List.map_take] at hparams
  simp only [List.length_nil, Nat.zero_add] at hdropped
  -- the items are recorded before the arguments are looked for
  obtain ⟨params, hparse, hsame, hcount, hwords⟩ : ∃ params, parse text = some params ∧
      params.params = recorded.params ∧ params.dropped = recorded.dropped ∧
        params.initArgWords = (arguments.getD []).map Argument.text := by
    cases arguments with
    | none =>
      cases htail with
      | nil hgap =>
        refine ⟨recorded, hitems.trans (parseWords_blank recorded hgap), rfl, rfl, ?_⟩
        rw [Params.initArgWords, hargs]
        rfl
    | some arguments =>
      cases htail with
      | @cons _ _ behind _ hgap hsep htext =>
        have hfirst : ∀ character ∈ ['-', '-'].head?, isWhitespace character = false := by
          rintro _ ⟨⟩
          decide
        have hdashes := @cutWord_plain ['-', '-'] (by decide) behind
        rw [cutWord_sep hsep] at hdashes
        have hword := parseWords_word recorded hgap (List.cons_ne_nil _ _) hfirst hdashes
        rw [if_pos rfl] at hword
        refine ⟨_, hitems.trans hword, rfl, rfl, ?_⟩
        rw [Params.initArgWords, splitWhitespace_trim, splitWhitespace_spaced htext]
        rfl
  rw [hparams] at hsame
  refine ⟨params, hparse, hsame, hcount.trans hdropped, hwords, fun key value => ?_, fun key => ?_, fun name => ?_⟩
  · rw [get_eq_some_iff, hsame]
  · rw [get_eq_none_iff, hsame]
  · rw [flag_iff, hsame, List.mem_map]
    constructor
    · rintro ⟨item, hmem, heq⟩
      cases item with
      | flag flag => exact ⟨flag, congrArg Prod.fst heq, hmem⟩
      | pair key value => cases congrArg Prod.snd heq
      | quoted key value => cases congrArg Prod.snd heq
    · rintro ⟨flag, rfl, hmem⟩
      exact ⟨_, hmem, rfl⟩

/-- A flag, a value with a space in it, and an argument. -/
theorem parse_written_bootLine : ∃ params, parse "quiet k=\"ä b\" -- -v".toList = some params ∧
    params.get ['k'] = some ['ä', ' ', 'b'] := by
  let quiet : Name := ⟨['q', 'u', 'i', 'e', 't'], by decide, by decide, by decide⟩
  let key : Name := ⟨['k'], by decide, by decide, by decide⟩
  let value : Value := ⟨['ä', ' ', 'b'], by decide⟩
  let argument : Argument := ⟨['-', 'v'], List.cons_ne_nil _ _, by decide⟩
  have hspace : Blank [' '] := List.forall_mem_singleton.mpr rfl
  have hsep (text : Text) : ∀ character ∈ (' ' :: text).head?, isWhitespace character = true := by
    rintro _ ⟨⟩
    rfl
  have hspaced : Spaced ([Item.flag quiet, Item.pair key value].map Item.render ++
      [['-', '-'], argument.text]) "quiet k=\"ä b\" -- -v".toList :=
    @Spaced.cons [] _ _ _ (fun _ h => by cases h) (hsep _) (.cons hspace (hsep _) (.cons hspace (hsep _)
      (.cons hspace (fun _ h => by cases h) (.nil (fun _ h => by cases h)))))
  obtain ⟨params, hparse, -, -, -, hget, -⟩ :=
    parse_written.2 [.flag quiet, .pair key value] (some [argument]) _ hspaced
  exact ⟨params, hparse, (hget _ _).mpr ⟨[(quiet.text, none)], [], rfl, (by simp)⟩⟩

end SaeOS.Cmdline
