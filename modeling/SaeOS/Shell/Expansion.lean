import SaeOS.Shell.Parse

/-!
# Expansion keeps the shape of a line

Of a variable's value only its emptiness shows in the tokens (`expansion`), so that what it holds is never
read as a quote, an operator or a comment. A word in single quotes is read back as it is.
-/

namespace SaeOS.Shell

/-- How many words a command has, and which files it redirects. -/
def Command.shape (command : Command) : ℕ × List RedirectKind :=
  (command.words.length, command.redirects.map Redirect.kind)

/-- A token without its text. -/
def Token.shape : Token → Token
  | .word _ _ => .word [] true
  | token => token

/-- Assignments with the same variables empty or unset. -/
def SameEmpty (lookup lookup' : Lookup) : Prop :=
  ∀ name, valueOf lookup name = [] ↔ valueOf lookup' name = []

variable {lookup lookup' : Lookup}

/-! ## The shape of the tokens -/

theorem expansion (h : SameEmpty lookup lookup') :
    Simulation .finish .finish lookup lookup' (fun a b => a = [] ↔ b = [])
      (fun l l' => l.map Token.shape = l'.map Token.shape) where
  refl _ := Iff.rfl
  append ha hb := by rw [List.append_eq_nil_iff, List.append_eq_nil_iff, ha, hb]
  push _ hl := by rw [List.map_append, List.map_append, hl]
  finish {s t} hst := by
    -- whether the word survives depends on its emptiness alone
    have hiff : (s.inWord ∧ (s.word ≠ [] ∨ s.quoted)) ↔ (t.inWord ∧ (t.word ≠ [] ∨ t.quoted)) := by
      rw [hst.inWord, hst.quoted, Ne, hst.word]
    rw [Lexer.finish, Lexer.finish]
    simp only [hiff]
    split_ifs
    · refine ⟨?_, Iff.rfl, rfl, rfl⟩
      rw [List.map_append, List.map_append, hst.tokens]
      rfl
    · exact ⟨hst.tokens, Iff.rfl, rfl, rfl⟩
  valueOf := h

/-! ## The shape of the commands -/

theorem Command.words_eq_nil {current current' : Command} (h : current.shape = current'.shape) :
    current.words = [] ↔ current'.words = [] := by
  rw [← List.length_eq_zero_iff, ← List.length_eq_zero_iff, show current.words.length = current'.words.length from
    congrArg Prod.fst h]

theorem Command.redirects_eq_nil {current current' : Command} (h : current.shape = current'.shape) :
    current.redirects = [] ↔ current'.redirects = [] := by
  rw [← List.map_eq_nil_iff, show current.redirects.map Redirect.kind = current'.redirects.map Redirect.kind from
    congrArg Prod.snd h, List.map_eq_nil_iff]

theorem Command.shape_endInto {current current' : Command} {commands commands' : List Command}
    (hcurrent : current.shape = current'.shape) (h : commands.map shape = commands'.map shape) :
    (current.endInto commands).map shape = (current'.endInto commands').map shape := by
  simp only [endInto, ne_eq, words_eq_nil hcurrent, redirects_eq_nil hcurrent]
  split_ifs
  · rw [List.map_append, List.map_append, h, List.map_singleton, List.map_singleton, hcurrent]
  · exact h

theorem Token.shape_eq_word {token : Token} (h : token.shape = .word [] true) :
    ∃ text quoted, token = .word text quoted := by
  cases token with
  | word text quoted => exact ⟨text, quoted, rfl⟩
  | redirect kind => cases h
  | separator => cases h

theorem Token.shape_eq_redirect {token : Token} {kind : RedirectKind} (h : token.shape = .redirect kind) :
    token = .redirect kind := by
  cases token with
  | word text quoted => cases h
  | redirect kind => exact h
  | separator => cases h

theorem Token.shape_eq_separator {token : Token} (h : token.shape = .separator) : token = .separator := by
  cases token with
  | word text quoted => cases h
  | redirect kind => cases h
  | separator => rfl

/-- Tokens of one shape give commands of one shape. -/
theorem parseLoop_alike {commands commands' : List Command} {current current' : Command}
    {tokens tokens' : List Token} (htokens : tokens.map Token.shape = tokens'.map Token.shape)
    (hcommands : commands.map Command.shape = commands'.map Command.shape)
    (hcurrent : current.shape = current'.shape) :
    (parseLoop commands current tokens).Alike (fun l l' => l.map Command.shape = l'.map Command.shape)
      (parseLoop commands' current' tokens') := by
  obtain ⟨hwords, hredirects⟩ := Prod.mk.inj hcurrent
  fun_induction parseLoop commands current tokens generalizing commands' current' tokens' with
  | case1 =>
    rw [List.map_nil, eq_comm, List.map_eq_nil_iff] at htokens
    subst htokens
    exact .ok (Command.shape_endInto hcurrent hcommands)
  | case2 commands current word quoted tokens ih =>
    obtain ⟨token, rest, rfl, hword, hrest⟩ := List.map_eq_cons_iff.mp htokens.symm
    obtain ⟨word', quoted', rfl⟩ := Token.shape_eq_word hword
    have hlength : (current.words ++ [word]).length = (current'.words ++ [word']).length := by
      rw [List.length_append, List.length_append, hwords]
      rfl
    rw [parseLoop]
    exact ih hrest.symm hcommands (Prod.ext hlength hredirects) hlength hredirects
  | case3 commands current kind target quoted tokens ih =>
    obtain ⟨token, rest, rfl, hredirect, hrest⟩ := List.map_eq_cons_iff.mp htokens.symm
    obtain ⟨token', more, rfl, hword, hmore⟩ := List.map_eq_cons_iff.mp hrest
    obtain ⟨target', quoted', rfl⟩ := Token.shape_eq_word hword
    obtain rfl := Token.shape_eq_redirect hredirect
    have hkinds : (current.redirects ++ [Redirect.mk kind target]).map Redirect.kind =
        (current'.redirects ++ [Redirect.mk kind target']).map Redirect.kind := by
      rw [List.map_append, List.map_append, hredirects]
      rfl
    rw [parseLoop]
    exact ih hmore.symm hcommands (Prod.ext hwords hkinds) hwords hkinds
  | case4 commands current kind tokens hnoWord =>
    obtain ⟨token, rest, rfl, hredirect, hrest⟩ := List.map_eq_cons_iff.mp htokens.symm
    obtain rfl := Token.shape_eq_redirect hredirect
    -- no word follows in the one line, so none does in the other
    rw [parseLoop_missing]
    · exact .error _
    · rintro target quoted more rfl
      obtain ⟨token, tokens, rfl, hword, hmore⟩ := List.map_eq_cons_iff.mp hrest.symm
      obtain ⟨target', quoted', rfl⟩ := Token.shape_eq_word hword
      exact hnoWord _ _ _ rfl
  | case5 commands current tokens ih =>
    obtain ⟨token, rest, rfl, hseparator, hrest⟩ := List.map_eq_cons_iff.mp htokens.symm
    obtain rfl := Token.shape_eq_separator hseparator
    rw [parseLoop]
    exact ih hrest.symm (Command.shape_endInto hcurrent hcommands) rfl rfl rfl

theorem parse_alike (h : SameEmpty lookup lookup') (line : Text) :
    (parse line lookup).Alike (fun l l' => l.map Command.shape = l'.map Command.shape) (parse line lookup') :=
  ((expansion h).tokenizeLoop_alike ⟨rfl, Iff.rfl, rfl, rfl⟩ line).bind fun _ _ _ htokens =>
    parseLoop_alike htokens rfl rfl

/-! ## Quoting -/

/-- The text of a word in single quotes, where a quote ends them, is escaped and begins them again. -/
def quoteText (word : Text) : Text :=
  word.flatMap fun character => if character = '\'' then ['\'', '\\', '\'', '\''] else [character]

def quote (word : Text) : Text :=
  '\'' :: quoteText word ++ ['\'']

def joinQuoted (words : List Text) : Text :=
  [' '].intercalate (words.map quote)

/-- A quote opens quoted text. -/
theorem tokenizeLoop_open (s : Lexer) (text : Text) :
    tokenizeLoop .finish lookup s ('\'' :: text) =
      singleQuoted s.word text >>= fun quoted => tokenizeLoop .finish lookup (s.grow true quoted.1) quoted.2 := by
  rw [tokenizeLoop_cons, step]
  cases singleQuoted s.word text with
  | error error => rfl
  | ok quoted => rfl

theorem tokenizeLoop_escaped (s : Lexer) (character : Char) (text : Text) :
    tokenizeLoop .finish lookup s ('\\' :: character :: text) =
      tokenizeLoop .finish lookup (s.grow true (s.word ++ [character])) text := by
  rw [tokenizeLoop_cons]
  rfl

theorem tokenizeLoop_space (s : Lexer) (text : Text) :
    tokenizeLoop .finish lookup s (' ' :: text) = tokenizeLoop .finish lookup s.finish text := by
  rw [tokenizeLoop_cons]
  rfl

/-- A word in single quotes goes onto the lexer's word. -/
theorem tokenizeLoop_quote (s : Lexer) (word rest : Text) :
    tokenizeLoop .finish lookup s ('\'' :: (quoteText word ++ '\'' :: rest)) =
      tokenizeLoop .finish lookup (s.grow true (s.word ++ word)) rest := by
  induction word generalizing s with
  | nil =>
    rw [tokenizeLoop_open, List.append_nil]
    rfl
  | cons character word ih =>
    have hgrown : s.word ++ character :: word = s.word ++ [character] ++ word :=
      List.append_cons ..
    rw [quoteText, List.flatMap_cons, ← quoteText, hgrown]
    split_ifs with hquote
    · -- the quotes around the escaped one end the text and begin it again
      subst hquote
      calc tokenizeLoop .finish lookup s ('\'' :: '\'' :: '\\' :: '\'' :: '\'' :: (quoteText word ++ '\'' :: rest))
        _ = tokenizeLoop .finish lookup (s.grow true s.word)
            ('\\' :: '\'' :: '\'' :: (quoteText word ++ '\'' :: rest)) := tokenizeLoop_open s _
        _ = tokenizeLoop .finish lookup (s.grow true (s.word ++ ['\'']))
            ('\'' :: (quoteText word ++ '\'' :: rest)) := by
          rw [tokenizeLoop_escaped]
          simp [Lexer.grow]
        _ = tokenizeLoop .finish lookup (s.grow true (s.word ++ ['\''] ++ word)) rest := by
          rw [ih]
          simp [Lexer.grow]
    · -- the character is as good as on the word before the quotes
      have hpushed := ih ⟨s.tokens, s.word ++ [character], s.inWord, s.quoted⟩
      rw [tokenizeLoop_open] at hpushed ⊢
      rw [List.singleton_append, List.cons_append, singleQuoted, if_neg hquote]
      exact hpushed

/-- A quoted word is a word even if it is empty. -/
theorem finish_quoted (s : Lexer) (word : Text) :
    (s.grow true word).finish = ⟨s.tokens ++ [.word word true], [], false, false⟩ := by
  rw [Lexer.finish, Lexer.grow, Bool.or_true]
  exact if_pos ⟨rfl, Or.inr rfl⟩

theorem tokenizeLoop_joinQuoted (tokens : List Token) (words : List Text) (hwords : words ≠ []) :
    tokenizeLoop .finish lookup ⟨tokens, [], false, false⟩ (joinQuoted words) =
      .ok (tokens ++ words.map (Token.word · true)) := by
  induction words generalizing tokens with
  | nil => exact absurd rfl hwords
  | cons word words ih =>
    cases words with
    | nil =>
      have hjoin : joinQuoted [word] = '\'' :: (quoteText word ++ '\'' :: []) := by
        simp [joinQuoted, quote]
      rw [hjoin, tokenizeLoop_quote, tokenizeLoop, finish_quoted]
      rfl
    | cons next words =>
      have hjoin : joinQuoted (word :: next :: words) =
          '\'' :: (quoteText word ++ '\'' :: ' ' :: joinQuoted (next :: words)) := by
        simp [joinQuoted, quote, List.intercalate]
      rw [hjoin, tokenizeLoop_quote, tokenizeLoop_space, finish_quoted]
      refine (ih (tokens ++ [.word word true]) (by simp)).trans ?_
      rw [List.append_assoc]
      rfl

theorem parseLoop_words (current : Command) (words : List Text) (hcurrent : current.words ++ words ≠ []) :
    parseLoop [] current (words.map (Token.word · true)) = .ok [⟨current.words ++ words, current.redirects⟩] := by
  induction words generalizing current with
  | nil =>
    rw [List.append_nil] at hcurrent ⊢
    exact congrArg Except.ok (if_pos (Or.inl hcurrent))
  | cons word words ih =>
    have hgrown : current.words ++ [word] ++ words = current.words ++ word :: words :=
      List.append_assoc ..
    rw [← hgrown] at hcurrent ⊢
    exact ih { current with words := current.words ++ [word] } hcurrent

theorem parse_joinQuoted (lookup : Lookup) {words : List Text} (hwords : words ≠ []) :
    parse (joinQuoted words) lookup = .ok [⟨words, []⟩] := by
  rw [parse, tokenize, tokenizeLoop_joinQuoted [] words hwords]
  exact parseLoop_words ⟨[], []⟩ words hwords

/-! ## The shape of a line -/

/-- What the variables hold does not change the shape of a line, and quoted words are read back. -/
theorem parse_shape :
    (∀ (line : Text) (lookup lookup' : Lookup), SameEmpty lookup lookup' →
      (parse line lookup).Alike (fun l l' => l.map Command.shape = l'.map Command.shape)
        (parse line lookup')) ∧
    ∀ (words : List Text) (lookup : Lookup), words ≠ [] →
      parse (joinQuoted words) lookup = .ok [⟨words, []⟩] :=
  ⟨fun line _ _ h => parse_alike h line, fun _ lookup hwords => parse_joinQuoted lookup hwords⟩

/-- A value that looks like the end of a command stays one word. -/
theorem parse_shape_semicolon :
    let lookup : Lookup := fun name => if name = ['X'] then some ['a', ';', '>', 'b'] else none
    let lookup' : Lookup := fun name => if name = ['X'] then some ['b'] else none
    (parse ['e', ' ', '$', 'X'] lookup).Alike (fun l l' => l.map Command.shape = l'.map Command.shape)
      (parse ['e', ' ', '$', 'X'] lookup') ∧
      parse (joinQuoted [['t', '\'', 's'], []]) lookup = .ok [⟨[['t', '\'', 's'], []], []⟩] := by
  intro lookup lookup'
  refine ⟨parse_shape.1 _ _ _ fun name => ?_, parse_shape.2 _ _ (List.cons_ne_nil _ _)⟩
  by_cases hname : name = ['X']
  · subst hname
    exact ⟨(fun h => by cases h), (fun h => by cases h)⟩
  · simp [valueOf, lookup, lookup', hname]

end SaeOS.Shell
