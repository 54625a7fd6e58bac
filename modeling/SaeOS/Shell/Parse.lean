import Mathlib.Data.List.Forall2
import SaeOS.Lib.Alike
import SaeOS.Lib.Text

/-!
# Shell command lines

`userspace/sh/src/parse.rs`. Variables are looked up while the line is cut into tokens, and a word that is
not quoted and expands to nothing gives no token. What a variable holds is only ever put at the end of a
word, so that two assignments which agree on the empty variables give commands of one shape.
-/

namespace SaeOS.Shell

inductive RedirectKind where
  | output
  | append
  | input
deriving DecidableEq

structure Redirect where
  kind : RedirectKind
  target : Text
deriving DecidableEq

structure Command where
  words : List Text
  redirects : List Redirect
deriving DecidableEq

inductive ParseError where
  | unterminatedQuote
  /-- A redirection with no file name after it. -/
  | missingRedirectTarget
  /-- `${` without `}`. -/
  | badSubstitution
deriving DecidableEq

inductive Token where
  /-- The text, and whether any of it was quoted. -/
  | word (text : Text) (quoted : Bool)
  | redirect (kind : RedirectKind)
  | separator
deriving DecidableEq

/-- The shell's variables; `?` is the last exit status. -/
abbrev Lookup := Text → Option Text

def isNameStart (character : Char) : Bool :=
  character = '_' || character.isAlpha

def isName (character : Char) : Bool :=
  character = '_' || character.isAlphanum

/-- `lookup(name).unwrap_or_default()`. -/
def valueOf (lookup : Lookup) (name : Text) : Text :=
  (lookup name).getD []

/-! ## Expansion -/

/-- The name up to `}`, and the text after it. -/
def bracedName (name : Text) : Text → Except ParseError (Text × Text)
  | [] => .error .badSubstitution
  | character :: rest =>
    if character = '}' then .ok (name, rest)
    else if isName character then bracedName (name ++ [character]) rest
    else .error .badSubstitution

/-- Expand a `$...` reference starting after the `$`; the value, and the text after the reference. -/
def expand (lookup : Lookup) : Text → Except ParseError (Text × Text)
  | [] => .ok (['$'], [])
  | character :: rest =>
    if character = '?' then .ok (valueOf lookup ['?'], rest)
    else if character = '{' then do
      let (name, rest) ← bracedName [] rest
      if name = [] then .error .badSubstitution else .ok (valueOf lookup name, rest)
    else if isNameStart character then
      let text := character :: rest
      .ok (valueOf lookup (text.takeWhile isName), text.dropWhile isName)
    -- a lone `$` is just a dollar sign
    else .ok (['$'], character :: rest)

theorem bracedName_length {name text found rest : Text} (h : bracedName name text = .ok (found, rest)) :
    rest.length < text.length := by
  induction text generalizing name with
  | nil => cases h
  | cons character text ih =>
    rw [bracedName] at h
    split_ifs at h
    · cases h
      exact Nat.lt_succ_self _
    · exact (ih h).trans (Nat.lt_succ_self _)

theorem expand_length {lookup : Lookup} {text value rest : Text} (h : expand lookup text = .ok (value, rest)) :
    rest.length ≤ text.length := by
  cases text with
  | nil =>
    cases h
    exact le_rfl
  | cons character text =>
    rw [expand] at h
    split_ifs at h
    · cases h
      exact Nat.le_succ _
    · obtain ⟨⟨name, braced⟩, hbraced, hvalue⟩ := Except.bind_eq_ok_iff.mp h
      have hlength := bracedName_length hbraced
      dsimp only at hvalue
      split_ifs at hvalue
      cases hvalue
      exact hlength.le.trans (Nat.le_succ _)
    · cases h
      exact (List.dropWhile_sublist _).length_le
    · cases h
      exact le_rfl

/-! ## Tokens -/

/-- Inside `'...'`: the word with the text up to the closing quote, and the text after it. -/
def singleQuoted (word : Text) : Text → Except ParseError (Text × Text)
  | [] => .error .unterminatedQuote
  | character :: rest =>
    if character = '\'' then .ok (word, rest) else singleQuoted (word ++ [character]) rest

/-- Inside `"..."`: text with `$` expansion and the escapes of `"`, `\` and `$`. -/
def doubleQuoted (lookup : Lookup) (word : Text) : Text → Except ParseError (Text × Text)
  | [] => .error .unterminatedQuote
  | character :: rest =>
    if character = '"' then .ok (word, rest)
    else if character = '\\' then
      match rest with
      | [] => .error .unterminatedQuote
      | escaped :: rest =>
        if escaped = '"' ∨ escaped = '\\' ∨ escaped = '$' then doubleQuoted lookup (word ++ [escaped]) rest
        else doubleQuoted lookup (word ++ ['\\'] ++ [escaped]) rest
    else if character = '$' then
      match _ : expand lookup rest with
      | .error error => .error error
      | .ok (value, rest) => doubleQuoted lookup (word ++ value) rest
    else doubleQuoted lookup (word ++ [character]) rest
termination_by text => text.length
decreasing_by
  all_goals simp only [List.length_cons]
  · omega
  · omega
  · have := expand_length ‹_›
    omega
  · omega

theorem doubleQuoted_cons (lookup : Lookup) (word : Text) (character : Char) (rest : Text) :
    doubleQuoted lookup word (character :: rest) =
      if character = '"' then .ok (word, rest)
      else if character = '\\' then
        match rest with
        | [] => .error .unterminatedQuote
        | escaped :: rest =>
          if escaped = '"' ∨ escaped = '\\' ∨ escaped = '$' then doubleQuoted lookup (word ++ [escaped]) rest
          else doubleQuoted lookup (word ++ ['\\'] ++ [escaped]) rest
      else if character = '$' then do
        let (value, rest) ← expand lookup rest
        doubleQuoted lookup (word ++ value) rest
      else doubleQuoted lookup (word ++ [character]) rest := by
  rw [doubleQuoted.eq_def]
  dsimp only
  split_ifs
  · rfl
  · cases rest <;> rfl
  · split
    · next h => rw [h]; rfl
    · next h => rw [h]; rfl
  · rfl

/-- What the loop of `tokenize` keeps. -/
structure Lexer where
  tokens : List Token
  word : Text
  inWord : Bool
  quoted : Bool
deriving DecidableEq

namespace Lexer

/-- The end of a word: an empty word is a word if some of it was quoted. -/
def finish (s : Lexer) : Lexer :=
  if s.inWord ∧ (s.word ≠ [] ∨ s.quoted) then ⟨s.tokens ++ [.word s.word s.quoted], [], false, false⟩
  else ⟨s.tokens, [], false, false⟩

def push (token : Token) (s : Lexer) : Lexer :=
  { s with tokens := s.tokens ++ [token] }

/-- The word becomes `word`, which has `quoted` text in it or what the word had. -/
def grow (quoted : Bool) (word : Text) (s : Lexer) : Lexer :=
  ⟨s.tokens, word, true, s.quoted || quoted⟩

end Lexer

section Tokenize

variable (finish : Lexer → Lexer) (lookup : Lookup)

/-- One round of the loop on a character and the text after it, where `finish` ends a word. None at a
comment, which ends the line. -/
def step (s : Lexer) (character : Char) (rest : Text) : Except ParseError (Option (Lexer × Text)) :=
  if character = ' ' ∨ character = '\t' ∨ character = '\n' ∨ character = '\r' then .ok (some (finish s, rest))
  else if character = '#' ∧ ¬ s.inWord then .ok none
  else if character = ';' then .ok (some ((finish s).push .separator, rest))
  else if character = '<' then .ok (some ((finish s).push (.redirect .input), rest))
  else if character = '>' then
    if rest.head? = some '>' then .ok (some ((finish s).push (.redirect .append), rest.tail))
    else .ok (some ((finish s).push (.redirect .output), rest))
  else if character = '\'' then do
    let (word, rest) ← singleQuoted s.word rest
    .ok (some (s.grow true word, rest))
  else if character = '"' then do
    let (word, rest) ← doubleQuoted lookup s.word rest
    .ok (some (s.grow true word, rest))
  else if character = '\\' then
    .ok (some (s.grow true (s.word ++ rest.head?.toList), rest.tail))
  else if character = '$' then do
    let (value, rest) ← expand lookup rest
    .ok (some (s.grow false (s.word ++ value), rest))
  else .ok (some (s.grow false (s.word ++ [character]), rest))

theorem singleQuoted_length {word text found rest : Text} (h : singleQuoted word text = .ok (found, rest)) :
    rest.length ≤ text.length := by
  induction text generalizing word with
  | nil => cases h
  | cons character text ih =>
    rw [singleQuoted] at h
    split_ifs at h
    · cases h
      exact Nat.le_succ _
    · exact (ih h).trans (Nat.le_succ _)

variable {lookup} in
theorem doubleQuoted_length {word text found rest : Text}
    (h : doubleQuoted lookup word text = .ok (found, rest)) : rest.length ≤ text.length := by
  fun_induction doubleQuoted lookup word text with
  | case1 => cases h
  | case2 =>
    cases h
    exact Nat.le_succ _
  | case3 => cases h
  | case4 _ _ _ _ _ ih => exact (ih h).trans (Nat.le_add_right _ 2)
  | case5 _ _ _ _ _ ih => exact (ih h).trans (Nat.le_add_right _ 2)
  | case6 => cases h
  | case7 _ _ _ _ hexpand _ _ ih => exact (ih h).trans ((expand_length hexpand).trans (Nat.le_succ _))
  | case8 _ _ _ _ _ _ ih => exact (ih h).trans (Nat.le_succ _)

variable {finish lookup} in
/-- No round puts text back. -/
theorem step_length {s t : Lexer} {character : Char} {rest rest' : Text}
    (h : step finish lookup s character rest = .ok (some (t, rest'))) : rest'.length ≤ rest.length := by
  have hensures : (step finish lookup s character rest).Ensures
      fun next => ∀ t rest', next = some (t, rest') → rest'.length ≤ rest.length := by
    have hsame (t : Lexer) : (Except.ok (some (t, rest)) : Except ParseError _).Ensures
        fun next => ∀ t rest', next = some (t, rest') → rest'.length ≤ rest.length :=
      .ok fun _ _ hnext => by cases hnext; exact le_rfl
    have htail (t : Lexer) : (Except.ok (some (t, rest.tail)) : Except ParseError _).Ensures
        fun next => ∀ t rest', next = some (t, rest') → rest'.length ≤ rest.length :=
      .ok fun _ _ hnext => by cases hnext; exact (List.tail_sublist _).length_le
    refine .ite (hsame _) (.ite (.ok (by simp)) (.ite (hsame _) (.ite (hsame _) ?_)))
    refine .ite (.ite (htail _) (hsame _)) (.ite ?_ (.ite ?_ (.ite (htail _) (.ite ?_ (hsame _)))))
    · refine Except.Ensures.bind (fun _ => singleQuoted_length) fun quoted hquoted => ?_
      exact .ok fun _ _ hnext => by cases hnext; exact hquoted
    · refine Except.Ensures.bind (fun _ => doubleQuoted_length) fun quoted hquoted => ?_
      exact .ok fun _ _ hnext => by cases hnext; exact hquoted
    · refine Except.Ensures.bind (fun _ => expand_length) fun expanded hexpanded => ?_
      exact .ok fun _ _ hnext => by cases hnext; exact hexpanded
  exact hensures _ h t rest' rfl

/-- The loop of `tokenize`: the tokens of the line once its last word is ended. -/
def tokenizeLoop (s : Lexer) : Text → Except ParseError (List Token)
  | [] => .ok (finish s).tokens
  | character :: rest =>
    match _ : step finish lookup s character rest with
    | .error error => .error error
    | .ok none => .ok (finish s).tokens
    | .ok (some (s, rest)) => tokenizeLoop s rest
termination_by text => text.length
decreasing_by
  have := step_length ‹_›
  rw [List.length_cons]
  omega

variable {finish lookup} in
theorem tokenizeLoop_cons (s : Lexer) (character : Char) (rest : Text) :
    tokenizeLoop finish lookup s (character :: rest) = step finish lookup s character rest >>= fun
      | none => .ok (finish s).tokens
      | some (s, rest) => tokenizeLoop finish lookup s rest := by
  rw [tokenizeLoop]
  split
  all_goals
    next h =>
      rw [h]
      rfl

end Tokenize

def tokenize (line : Text) (lookup : Lookup) : Except ParseError (List Token) :=
  tokenizeLoop .finish lookup ⟨[], [], false, false⟩ line

/-- Empty commands are dropped. -/
def Command.endInto (current : Command) (commands : List Command) : List Command :=
  if current.words ≠ [] ∨ current.redirects ≠ [] then commands ++ [current] else commands

/-- The loop of `parse`. -/
def parseLoop (commands : List Command) (current : Command) : List Token → Except ParseError (List Command)
  | [] => .ok (current.endInto commands)
  | .word word _ :: tokens => parseLoop commands { current with words := current.words ++ [word] } tokens
  | .redirect kind :: .word target _ :: tokens =>
    parseLoop commands { current with redirects := current.redirects ++ [⟨kind, target⟩] } tokens
  | .redirect _ :: _ => .error .missingRedirectTarget
  | .separator :: tokens => parseLoop (current.endInto commands) ⟨[], []⟩ tokens

theorem parseLoop_missing {commands : List Command} {current : Command} {kind : RedirectKind}
    {tokens : List Token} (h : ∀ target quoted rest, tokens ≠ .word target quoted :: rest) :
    parseLoop commands current (.redirect kind :: tokens) = .error .missingRedirectTarget := by
  cases tokens with
  | nil => rfl
  | cons token rest =>
    cases token with
    | word target quoted => exact absurd rfl (h target quoted rest)
    | redirect kind => rfl
    | separator => rfl

/-- Parse one line into the commands to run, in order. -/
def parse (line : Text) (lookup : Lookup) : Except ParseError (List Command) := do
  let tokens ← tokenize line lookup
  parseLoop [] ⟨[], []⟩ tokens

example : parse "echo \"a $HOME\" 'no $x' x\\ y > out; cat<out".toList
    (fun name => if name = "HOME".toList then some "/ > ;".toList else none) =
    .ok [⟨["echo".toList, "a / > ;".toList, "no $x".toList, "x y".toList], [⟨.output, "out".toList⟩]⟩,
      ⟨["cat".toList], [⟨.input, "out".toList⟩]⟩] := by
  decide +kernel

/-! ## Two tokenizers side by side -/

/-- A token of the line as it is: only a word that vanishes is a bare word without text. -/
def Token.Survives (token : Token) : Prop :=
  token ≠ .word [] false
deriving Decidable

/-- Lexers at one place of a line. -/
structure Lexer.Alike (word : Text → Text → Prop) (tokens : List Token → List Token → Prop) (s t : Lexer) :
    Prop where
  tokens : tokens s.tokens t.tokens
  word : word s.word t.word
  inWord : s.inWord = t.inWord
  quoted : s.quoted = t.quoted

/-- How two tokenizers keep their words and their tokens related, when only the ends of words and the values
of variables differ. -/
structure Simulation (finish finish' : Lexer → Lexer) (lookup lookup' : Lookup)
    (word : Text → Text → Prop) (tokens : List Token → List Token → Prop) : Prop where
  refl : ∀ text, word text text
  append : ∀ {a a' b b'}, word a a' → word b b' → word (a ++ b) (a' ++ b')
  push : ∀ {l l' token}, token.Survives → tokens l l' → tokens (l ++ [token]) (l' ++ [token])
  finish : ∀ {s t}, Lexer.Alike word tokens s t → Lexer.Alike word tokens (finish s) (finish' t)
  valueOf : ∀ name, word (valueOf lookup name) (valueOf lookup' name)

namespace Simulation

variable {finish finish' : Lexer → Lexer} {lookup lookup' : Lookup} {R : Text → Text → Prop}
variable {T : List Token → List Token → Prop}

theorem expand_alike (h : Simulation finish finish' lookup lookup' R T) (text : Text) :
    (expand lookup text).Alike (fun a b => R a.1 b.1 ∧ a.2 = b.2) (expand lookup' text) := by
  cases text with
  | nil => exact .ok ⟨h.refl _, rfl⟩
  | cons character rest =>
    simp only [expand]
    split_ifs
    · exact .ok ⟨h.valueOf _, rfl⟩
    · -- the name is read without looking a variable up
      refine Except.Alike.bind (.of_eq rfl fun _ => rfl) fun braced _ _ hbraced => ?_
      subst hbraced
      split_ifs
      · exact .error _
      · exact .ok ⟨h.valueOf _, rfl⟩
    · exact .ok ⟨h.valueOf _, rfl⟩
    · exact .ok ⟨h.refl _, rfl⟩

theorem singleQuoted_alike (h : Simulation finish finish' lookup lookup' R T) {word word' : Text}
    (hword : R word word') (text : Text) :
    (singleQuoted word text).Alike (fun a b => R a.1 b.1 ∧ a.2 = b.2) (singleQuoted word' text) := by
  induction text generalizing word word' with
  | nil => exact .error _
  | cons character rest ih =>
    simp only [singleQuoted]
    split_ifs
    · exact .ok ⟨hword, rfl⟩
    · exact ih (h.append hword (h.refl _))

theorem doubleQuoted_alike (h : Simulation finish finish' lookup lookup' R T) {word word' : Text}
    (hword : R word word') (text : Text) :
    (doubleQuoted lookup word text).Alike (fun a b => R a.1 b.1 ∧ a.2 = b.2)
      (doubleQuoted lookup' word' text) := by
  induction hlength : text.length using Nat.strong_induction_on generalizing word word' text with
  | _ length ih =>
  subst hlength
  cases text with
  | nil =>
    rw [doubleQuoted, doubleQuoted]
    exact .error _
  | cons character rest =>
    have hrest {found found' rest' : Text} (hfound : R found found') (hle : rest'.length ≤ rest.length) :=
      ih _ (Nat.lt_succ_of_le hle) hfound rest' rfl
    rw [doubleQuoted_cons, doubleQuoted_cons]
    split_ifs
    · exact .ok ⟨hword, rfl⟩
    · cases rest with
      | nil => exact .error _
      | cons escaped rest =>
        dsimp only
        split_ifs
        · exact hrest (h.append hword (h.refl _)) (Nat.le_succ _)
        · exact hrest (h.append (h.append hword (h.refl _)) (h.refl _)) (Nat.le_succ _)
    · refine (h.expand_alike rest).bind fun expanded expanded' hexpanded hvalue => ?_
      obtain ⟨hvalue, hafter⟩ := hvalue
      dsimp only
      rw [← hafter]
      exact hrest (h.append hword hvalue) (expand_length hexpanded)
    · exact hrest (h.append hword (h.refl _)) le_rfl

/-- One round keeps the lexers at one place, with the same text left. -/
theorem step_alike (h : Simulation finish finish' lookup lookup' R T) {s t : Lexer}
    (hst : s.Alike R T t) (character : Char) (rest : Text) :
    (step finish lookup s character rest).Alike
      (Option.Rel fun a b => a.1.Alike R T b.1 ∧ a.2 = b.2) (step finish' lookup' t character rest) := by
  have hfinish := h.finish hst
  have hpush {token : Token} (htoken : token.Survives) : ((finish s).push token).Alike R T ((finish' t).push token) :=
    ⟨h.push htoken hfinish.tokens, hfinish.word, hfinish.inWord, hfinish.quoted⟩
  have hgrow (quoted : Bool) {word word' : Text} (hword : R word word') :
      (s.grow quoted word).Alike R T (t.grow quoted word') :=
    ⟨hst.tokens, hword, rfl, congrArg (· || quoted) hst.quoted⟩
  simp only [step, hst.inWord]
  refine .ite (.ok (.some ⟨hfinish, rfl⟩)) (.ite (.ok .none) ?_)
  refine .ite (.ok (.some ⟨hpush (fun h => by cases h), rfl⟩))
    (.ite (.ok (.some ⟨hpush (fun h => by cases h), rfl⟩)) (.ite ?_ ?_))
  · exact .ite (.ok (.some ⟨hpush (fun h => by cases h), rfl⟩)) (.ok (.some ⟨hpush (fun h => by cases h), rfl⟩))
  refine .ite ?_ (.ite ?_ (.ite ?_ (.ite ?_ ?_)))
  · refine (h.singleQuoted_alike hst.word rest).bind fun _ _ _ hword => ?_
    exact .ok (.some ⟨hgrow true hword.1, hword.2⟩)
  · refine (h.doubleQuoted_alike hst.word rest).bind fun _ _ _ hword => ?_
    exact .ok (.some ⟨hgrow true hword.1, hword.2⟩)
  · exact .ok (.some ⟨hgrow true (h.append hst.word (h.refl _)), rfl⟩)
  · refine (h.expand_alike rest).bind fun _ _ _ hvalue => ?_
    exact .ok (.some ⟨hgrow false (h.append hst.word hvalue.1), hvalue.2⟩)
  · exact .ok (.some ⟨hgrow false (h.append hst.word (h.refl _)), rfl⟩)

theorem tokenizeLoop_alike (h : Simulation finish finish' lookup lookup' R T) {s t : Lexer}
    (hst : s.Alike R T t) (text : Text) :
    (tokenizeLoop finish lookup s text).Alike T (tokenizeLoop finish' lookup' t text) := by
  induction hlength : text.length using Nat.strong_induction_on generalizing s t text with
  | _ length ih =>
  subst hlength
  cases text with
  | nil =>
    rw [tokenizeLoop, tokenizeLoop]
    exact .ok (h.finish hst).tokens
  | cons character rest =>
    rw [tokenizeLoop_cons, tokenizeLoop_cons]
    refine (h.step_alike hst character rest).bind fun next next' hnext hrel => ?_
    cases hrel with
    | none => exact .ok (h.finish hst).tokens
    | some hrel =>
      obtain ⟨hrel, hrest⟩ := hrel
      dsimp only
      rw [← hrest]
      exact ih _ (Nat.lt_succ_of_le (step_length hnext)) hrel _ rfl

end Simulation

end SaeOS.Shell
