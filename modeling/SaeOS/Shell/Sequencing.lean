import SaeOS.Shell.Machine
import SaeOS.Shell.Redirects

/-!
# Lines in sequence

`c1 ; c2` in one line against the lines `c1` and `c2`. The commands of the one line are those of both, but
all of them are expanded before the first one runs.
-/

namespace SaeOS.Shell

/-- The loop of `tokenize` reads the whole text: no comment ends it, and no unescaped backslash is at its
end. -/
inductive ReadsThrough (lookup : Lookup) : Lexer → Text → Lexer → Prop
  | nil (s : Lexer) : ReadsThrough lookup s [] s
  | cons {s s' t : Lexer} {character : Char} {rest rest' : Text} (hescape : character = '\\' → rest ≠ [])
      (hstep : step .finish lookup s character rest = .ok (some (s', rest')))
      (h : ReadsThrough lookup s' rest' t) : ReadsThrough lookup s (character :: rest) t

/-- The lexer at the start of a line. -/
def Lexer.start : Lexer :=
  ⟨[], [], false, false⟩

variable {lookup lookup' : Lookup} {s t : Lexer} {text more : Text} {tokens : List Token}

/-! ## One text after another -/

/-- What reads a text and leaves the rest of it does the same with a space and more text behind. -/
def Local {α : Type} (f : Text → Except ParseError (α × Text)) : Prop :=
  ∀ text more a rest, f text = .ok (a, rest) → f (text ++ ' ' :: more) = .ok (a, rest ++ ' ' :: more)

theorem local_bracedName (name : Text) : Local (bracedName name) := by
  intro text more found rest h
  induction text generalizing name with
  | nil => contradiction
  | cons character text ih =>
    rw [List.cons_append]
    rw [bracedName] at h ⊢
    split_ifs at h ⊢
    · obtain ⟨rfl, rfl⟩ := Prod.mk.inj (Except.ok.inj h)
      rfl
    · exact ih _ h

/-- A name ends before a space. -/
theorem name_append (text more : Text) :
    (text ++ ' ' :: more).takeWhile isName = text.takeWhile isName ∧
      (text ++ ' ' :: more).dropWhile isName = text.dropWhile isName ++ ' ' :: more := by
  have hspace : isName ' ' = false := by decide
  induction text with
  | nil => exact ⟨List.takeWhile_cons_of_neg (by simp [hspace]), List.dropWhile_cons_of_neg (by simp [hspace])⟩
  | cons character text ih =>
    rw [List.cons_append]
    by_cases hname : isName character = true
    · rw [List.takeWhile_cons_of_pos hname, List.takeWhile_cons_of_pos hname, List.dropWhile_cons_of_pos hname,
        List.dropWhile_cons_of_pos hname, ih.1, ih.2]
      exact ⟨rfl, rfl⟩
    · rw [List.takeWhile_cons_of_neg hname, List.takeWhile_cons_of_neg hname, List.dropWhile_cons_of_neg hname,
        List.dropWhile_cons_of_neg hname]
      exact ⟨rfl, rfl⟩

theorem local_expand : Local (expand lookup) := by
  intro text more value rest h
  cases text with
  | nil =>
    -- a lone `$` at the end is one before a space as well
    obtain ⟨rfl, rfl⟩ := Prod.mk.inj (Except.ok.inj h)
    rfl
  | cons character text =>
    rw [List.cons_append]
    rw [expand] at h ⊢
    split_ifs at h ⊢
    · obtain ⟨rfl, rfl⟩ := Prod.mk.inj (Except.ok.inj h)
      rfl
    · obtain ⟨⟨name, braced⟩, hbraced, hvalue⟩ := Except.bind_eq_ok_iff.mp h
      refine Except.bind_eq_ok_iff.mpr ⟨_, local_bracedName [] _ more _ _ hbraced, ?_⟩
      dsimp only at hvalue ⊢
      split_ifs at hvalue ⊢
      obtain ⟨rfl, rfl⟩ := Prod.mk.inj (Except.ok.inj hvalue)
      rfl
    · obtain ⟨rfl, rfl⟩ := Prod.mk.inj (Except.ok.inj h)
      obtain ⟨htake, hdrop⟩ := name_append (character :: text) more
      dsimp only
      rw [← List.cons_append, htake, hdrop]
    · obtain ⟨rfl, rfl⟩ := Prod.mk.inj (Except.ok.inj h)
      rfl

theorem local_singleQuoted (word : Text) : Local (singleQuoted word) := by
  intro text more found rest h
  induction text generalizing word with
  | nil => contradiction
  | cons character text ih =>
    rw [List.cons_append]
    rw [singleQuoted] at h ⊢
    split_ifs at h ⊢
    · obtain ⟨rfl, rfl⟩ := Prod.mk.inj (Except.ok.inj h)
      rfl
    · exact ih _ h

theorem local_doubleQuoted (word : Text) : Local (doubleQuoted lookup word) := by
  intro text more found rest h
  induction hlength : text.length using Nat.strong_induction_on generalizing word text with
  | _ length ih =>
  subst hlength
  cases text with
  | nil =>
    rw [doubleQuoted] at h
    contradiction
  | cons character text =>
    rw [List.cons_append]
    rw [doubleQuoted_cons] at h ⊢
    split_ifs at h ⊢
    · obtain ⟨rfl, rfl⟩ := Prod.mk.inj (Except.ok.inj h)
      rfl
    · cases text with
      | nil => contradiction
      | cons escaped text =>
        rw [List.cons_append]
        dsimp only at h ⊢
        split_ifs at h ⊢
        · exact ih text.length (Nat.lt_add_of_pos_right (Nat.zero_lt_succ 1)) _ _ h rfl
        · exact ih text.length (Nat.lt_add_of_pos_right (Nat.zero_lt_succ 1)) _ _ h rfl
    · obtain ⟨⟨value, after⟩, hvalue, hafter⟩ := Except.bind_eq_ok_iff.mp h
      have hle := expand_length hvalue
      refine Except.bind_eq_ok_iff.mpr ⟨_, local_expand _ more _ _ hvalue, ?_⟩
      exact ih _ (Nat.lt_succ_of_le hle) _ _ hafter rfl
    · exact ih _ (Nat.lt_succ_self _) _ _ h rfl

/-- Where the one round goes on, the other goes on as well, with more text behind. -/
def Extends (more : Text) (x y : Except ParseError (Option (Lexer × Text))) : Prop :=
  ∀ t rest, x = .ok (some (t, rest)) → y = .ok (some (t, rest ++ ' ' :: more))

theorem Extends.ok (t : Lexer) (rest : Text) :
    Extends more (.ok (some (t, rest))) (.ok (some (t, rest ++ ' ' :: more))) := by
  intro u left h
  obtain ⟨rfl, rfl⟩ := Prod.mk.inj (Option.some.inj (Except.ok.inj h))
  rfl

theorem Extends.ite {c : Prop} [Decidable c] {x x' y y' : Except ParseError (Option (Lexer × Text))}
    (hpos : c → Extends more x y) (hneg : Extends more x' y') :
    Extends more (if c then x else x') (if c then y else y') := by
  split
  · exact hpos ‹_›
  · exact hneg

/-- What reads on in the text leaves more text behind it. -/
theorem Extends.read {f : Text → Except ParseError (Text × Text)} (hlocal : Local f) (u : Text → Lexer)
    (rest : Text) : Extends more (f rest >>= fun read => .ok (some (u read.1, read.2)))
      (f (rest ++ ' ' :: more) >>= fun read => .ok (some (u read.1, read.2))) := by
  intro t left h
  obtain ⟨⟨value, after⟩, hvalue, hafter⟩ := Except.bind_eq_ok_iff.mp h
  obtain ⟨rfl, rfl⟩ := Prod.mk.inj (Option.some.inj (Except.ok.inj hafter))
  exact Except.bind_eq_ok_iff.mpr ⟨_, hlocal _ more _ _ hvalue, rfl⟩

/-- A round of the loop goes as it does without the text behind, unless it is one on a backslash at the
end. -/
theorem extends_step {character : Char} {rest : Text} (hescape : character = '\\' → rest ≠ []) (more : Text) :
    Extends more (step .finish lookup s character rest)
      (step .finish lookup s character (rest ++ ' ' :: more)) := by
  have hhead : (rest ++ ' ' :: more).head? = some '>' ↔ rest.head? = some '>' := by
    cases rest with
    | nil => exact ⟨(by simp), (by simp)⟩
    | cons first rest => exact Iff.rfl
  unfold step
  simp only [hhead]
  refine .ite (fun _ => .ok _ _) (.ite (fun _ _ _ h => by cases h) (.ite (fun _ => .ok _ _)
    (.ite (fun _ => .ok _ _) ?_)))
  refine .ite (fun _ => .ite (fun hsecond => ?_) (.ok _ _)) ?_
  · -- the second `>` is in the text
    obtain ⟨after, rfl⟩ := List.head?_eq_some_iff.mp hsecond
    exact .ok _ _
  refine .ite (fun _ => .read (local_singleQuoted s.word) (s.grow true) rest) ?_
  refine .ite (fun _ => .read (local_doubleQuoted s.word) (s.grow true) rest) (.ite (fun hbackslash => ?_) ?_)
  · obtain ⟨escaped, after, rfl⟩ := List.exists_cons_of_ne_nil (hescape hbackslash)
    exact .ok _ _
  · exact .ite (fun _ => .read local_expand (fun value => s.grow false (s.word ++ value)) rest) (.ok _ _)

theorem ReadsThrough.tokenizeLoop_append (h : ReadsThrough lookup s text t) (more : Text) :
    tokenizeLoop .finish lookup s (text ++ ' ' :: more) = tokenizeLoop .finish lookup t (' ' :: more) := by
  induction h with
  | nil s => rfl
  | cons hescape hstep h ih =>
    rw [List.cons_append, tokenizeLoop_cons, extends_step hescape more _ _ hstep]
    exact ih

theorem ReadsThrough.tokenizeLoop_eq (h : ReadsThrough lookup s text t) :
    tokenizeLoop .finish lookup s text = .ok t.finish.tokens := by
  induction h with
  | nil s => rw [tokenizeLoop]
  | cons hescape hstep h ih =>
    rw [tokenizeLoop_cons, hstep]
    exact ih

/-- Tokens that are there already stay in front. -/
theorem earlier_simulation (lookup : Lookup) (tokens : List Token) :
    Simulation .finish .finish lookup lookup (· = ·) (fun l l' => l = tokens ++ l') where
  refl _ := rfl
  append ha hb := congrArg₂ _ ha hb
  push _ hl := by rw [hl, List.append_assoc]
  finish {s t} hst := by
    obtain ⟨htokens, hword, hin, hquoted⟩ := hst
    rw [Lexer.finish, Lexer.finish, hword, hin, hquoted]
    split_ifs
    · refine ⟨?_, rfl, rfl, rfl⟩
      rw [htokens, List.append_assoc]
    · exact ⟨htokens, rfl, rfl, rfl⟩
  valueOf _ := rfl

theorem tokenizeLoop_earlier (tokens : List Token) (text : Text) :
    tokenizeLoop .finish lookup ⟨tokens, [], false, false⟩ text = (tokenize text lookup).map (tokens ++ ·) := by
  have halike := (earlier_simulation lookup tokens).tokenizeLoop_alike
    (s := ⟨tokens, [], false, false⟩) (t := Lexer.start) ⟨(List.append_nil _).symm, rfl, rfl, rfl⟩ text
  show tokenizeLoop .finish lookup _ text = (tokenizeLoop .finish lookup Lexer.start text).map _
  generalize tokenizeLoop .finish lookup Lexer.start text = found' at halike ⊢
  generalize tokenizeLoop .finish lookup ⟨tokens, [], false, false⟩ text = found at halike ⊢
  obtain error | rfl := halike
  · rfl
  · rfl

/-- The text behind ` ; ` is read as a line of its own, with the tokens before it in front. -/
theorem tokenizeLoop_separator (t : Lexer) (more : Text) :
    tokenizeLoop .finish lookup t (' ' :: ';' :: ' ' :: more) =
      (tokenize more lookup).map (t.finish.tokens ++ .separator :: ·) := by
  have hfresh (u : Lexer) : u.finish = ⟨u.finish.tokens, [], false, false⟩ := by
    unfold Lexer.finish
    split_ifs <;> rfl
  have hseparated : tokenizeLoop .finish lookup t (' ' :: ';' :: ' ' :: more) =
      tokenizeLoop .finish lookup ⟨t.finish.tokens ++ [.separator], [], false, false⟩ more := by
    rw [tokenizeLoop_space, hfresh t, tokenizeLoop_cons]
    show tokenizeLoop .finish lookup _ (' ' :: more) = _
    rw [tokenizeLoop_space]
    rfl
  rw [hseparated, tokenizeLoop_earlier]
  simp only [List.append_assoc, List.singleton_append]

/-! ## Commands -/

theorem parseLoop_append {commands commands' : List Command} {current : Command} {tokens : List Token}
    (h : parseLoop commands current tokens = .ok commands') (more : List Token) :
    parseLoop commands current (tokens ++ .separator :: more) = parseLoop commands' ⟨[], []⟩ more := by
  fun_induction parseLoop commands current tokens with
  | case1 commands current =>
    obtain rfl := Except.ok.inj h
    rfl
  | case2 commands current word quoted tokens ih => exact ih h
  | case3 commands current kind target quoted tokens ih => exact ih h
  | case4 => contradiction
  | case5 commands current tokens ih => exact ih h

theorem Command.endInto_append (current : Command) (commands commands' : List Command) :
    current.endInto (commands ++ commands') = commands ++ current.endInto commands' := by
  unfold endInto
  split_ifs
  · exact List.append_assoc ..
  · rfl

/-- Commands that are there already stay in front. -/
theorem parseLoop_earlier (commands commands' : List Command) (current : Command) (tokens : List Token) :
    parseLoop (commands ++ commands') current tokens =
      (parseLoop commands' current tokens).map (commands ++ ·) := by
  fun_induction parseLoop commands' current tokens with
  | case1 commands' current => exact congrArg Except.ok (current.endInto_append commands commands')
  | case2 commands' current word quoted tokens ih => exact ih
  | case3 commands' current kind target quoted tokens ih => exact ih
  | case4 commands' current kind tokens hnoWord =>
    rw [parseLoop_missing fun target quoted rest => ?_]
    · rfl
    · rintro rfl
      exact hnoWord _ _ _ rfl
  | case5 commands' current tokens ih =>
    rw [parseLoop, current.endInto_append]
    exact ih

/-- The one line gives the commands of both, all expanded with the same variables. -/
theorem parse_append {first : Text} {commands : List Command} (hreads : ReadsThrough lookup Lexer.start first t)
    (hfirst : parse first lookup = .ok commands) (second : Text) :
    parse (first ++ " ; ".toList ++ second) lookup = (parse second lookup).map (commands ++ ·) := by
  have hline : first ++ " ; ".toList ++ second = first ++ ' ' :: (';' :: ' ' :: second) :=
    List.append_assoc ..
  obtain ⟨tokens, htokens, hparsed⟩ := Except.bind_eq_ok_iff.mp hfirst
  obtain rfl := Except.ok.inj (hreads.tokenizeLoop_eq.symm.trans htokens)
  rw [hline, parse, tokenize]
  show tokenizeLoop .finish lookup Lexer.start _ >>= _ = _
  rw [hreads.tokenizeLoop_append, tokenizeLoop_separator, parse]
  cases tokenize second lookup with
  | error error => rfl
  | ok more =>
    show parseLoop [] ⟨[], []⟩ (t.finish.tokens ++ .separator :: more) = (parseLoop [] ⟨[], []⟩ more).map _
    rw [parseLoop_append hparsed, ← parseLoop_earlier, List.append_nil]

/-! ## One command -/

/-- The variables, the status and the commands that have been run are the same. -/
structure Keeps {World : Type} (m m' : Machine World) : Prop where
  shell : m'.shell = m.shell
  ran : m'.ran = m.ran

variable {World : Type} (sys : System World) {m m' m'' : Machine World} {command : Command}

theorem Keeps.refl (m : Machine World) : Keeps m m :=
  ⟨rfl, rfl⟩

theorem Keeps.trans (h : Keeps m m') (h' : Keeps m' m'') : Keeps m m'' :=
  ⟨h'.shell.trans h.shell, h'.ran.trans h.ran⟩

theorem keeps_openOutput (output : Option Sink) (redirects : List Redirect) (m : Machine World) :
    Keeps m (openOutput sys output redirects m).1 := by
  induction redirects generalizing m output with
  | nil => exact .refl m
  | cons redirect redirects ih =>
    rw [openOutput]
    split_ifs
    · exact ih output m
    · split
      · exact ⟨(ih _ _).shell, (ih _ _).ran⟩
      · exact ⟨rfl, rfl⟩

theorem keeps_writeAll (sink : Sink) (text : Text) (m : Machine World) :
    Keeps m (writeAll sys sink text m).1 := by
  unfold writeAll
  split <;> exact ⟨rfl, rfl⟩

theorem keeps_outputBuiltin (name : Text) (arguments : List Text) (redirects : List Redirect)
    (m : Machine World) : Keeps m (outputBuiltin sys name arguments redirects m).1 := by
  have hopened := keeps_openOutput sys none redirects m
  unfold outputBuiltin
  split
  · next h => rwa [h] at hopened
  · next opened output h =>
    rw [h] at hopened
    refine hopened.trans ?_
    split
    · exact ⟨rfl, rfl⟩
    · split
      · exact keeps_writeAll sys _ _ opened
      · exact ⟨rfl, rfl⟩

theorem ran_redirectChild (redirects : List Redirect) (m : Machine World) :
    (redirectChild sys redirects m).1.ran = m.ran := by
  induction redirects generalizing m with
  | nil => rfl
  | cons redirect redirects ih =>
    rw [redirectChild]
    split
    · rfl
    · split
      · rfl
      · split_ifs
        · exact ih _
        · exact ih _

theorem ran_runChild (name path : Text) (command : Command) (m : Machine World) :
    (runChild sys name path command m).ran = m.ran := by
  have hredirected := ran_redirectChild sys command.redirects m
  unfold runChild
  split
  · next h =>
    rw [h] at hredirected
    exact hredirected
  · next h =>
    rw [h] at hredirected
    split <;> exact hredirected

theorem keeps_waitChild (name : Text) (m : Machine World) : Keeps m (waitChild sys name m).1 := by
  unfold waitChild
  split
  · exact ⟨rfl, rfl⟩
  · split <;> exact ⟨rfl, rfl⟩

/-- The child changes its own copy of the variables, and the shell goes on with its own. -/
theorem keeps_runProgram (name : Text) (command : Command) (m : Machine World) :
    Keeps m (runProgram sys name command m).1 := by
  unfold runProgram
  split
  · exact ⟨rfl, rfl⟩
  · split
    · exact ⟨rfl, rfl⟩
    · refine Keeps.trans (?_ : Keeps m (m.resume _)) (keeps_waitChild _ _ _)
      exact ⟨rfl, ran_runChild _ _ _ _ _⟩

theorem keeps_changeDirectory (arguments : List Text) (m : Machine World) :
    Keeps m (changeDirectory sys arguments m).1 := by
  unfold changeDirectory
  dsimp only
  split <;> exact ⟨rfl, rfl⟩

theorem ran_run (command : Command) (m : Machine World) : (run sys command m).1.ran = m.ran := by
  refine run_cases (P := fun u => u.ran = m.ran) ?_ ?_ ?_ ?_ ?_ ?_
  · exact fun _ => (keeps_openOutput _ _ _ _).ran
  · exact fun _ _ => (keeps_changeDirectory _ _ _).ran
  · exact fun _ _ => rfl
  · exact fun _ _ => rfl
  · exact fun _ _ _ => (keeps_outputBuiltin _ _ _ _ _).ran
  · exact fun _ _ _ _ => (keeps_runProgram _ _ _ _).ran

/-- Only `exit` ends the shell. -/
theorem exit_run (command : Command) (m : Machine World) :
    (run sys command m).1.shell.exit.isSome = true ↔ command.Exits ∨ m.shell.exit.isSome = true := by
  have hkept {u : Machine World} (hnot : ¬ command.Exits) (hshell : u.shell.exit = m.shell.exit) :
      u.shell.exit.isSome = true ↔ command.Exits ∨ m.shell.exit.isSome = true := by
    rw [hshell, or_iff_right hnot]
  refine run_cases (P := fun u => u.shell.exit.isSome = true ↔ _) ?_ ?_ ?_ ?_ ?_ ?_
  · exact fun hnot => hkept hnot (congrArg Shell.exit (keeps_openOutput _ _ _ _).shell)
  · exact fun _ hnot => hkept hnot (congrArg Shell.exit (keeps_changeDirectory _ _ _).shell)
  · exact fun _ hexits => iff_of_true rfl (.inl hexits)
  · exact fun _ hnot => hkept hnot rfl
  · exact fun _ _ hnot => hkept hnot (congrArg Shell.exit (keeps_outputBuiltin _ _ _ _ _).shell)
  · exact fun _ _ _ hnot => hkept hnot (congrArg Shell.exit (keeps_runProgram _ _ _ _).shell)

/-! ## The commands of a line -/

/-- The commands up to the first one that exits the shell. -/
def untilExit : List Command → List Command
  | [] => []
  | command :: commands => if command.Exits then [command] else command :: untilExit commands

theorem exit_runNext (command : Command) (m : Machine World) :
    (runNext sys command m).shell.exit.isSome = true ↔ command.Exits ∨ m.shell.exit.isSome = true :=
  exit_run sys command _

theorem ran_runNext (command : Command) (m : Machine World) :
    (runNext sys command m).ran = m.ran ++ [command] :=
  congrArg (· ++ [command]) (ran_run sys command m)

theorem runCommands_untilExit (commands : List Command) (m : Machine World) :
    runCommands sys commands m = runCommands sys (untilExit commands) m := by
  induction commands generalizing m with
  | nil => rfl
  | cons command commands ih =>
    have hexit := exit_runNext sys command m
    rw [untilExit]
    split_ifs with hcommand
    · rw [runCommands, runCommands, if_pos (hexit.mpr (.inl hcommand)), if_pos (hexit.mpr (.inl hcommand))]
    · rw [runCommands, runCommands, ih]

theorem ran_runCommands (commands : List Command) (hexit : m.shell.exit = none) :
    (runCommands sys commands m).ran = m.ran ++ untilExit commands := by
  induction commands generalizing m with
  | nil => exact (List.append_nil _).symm
  | cons command commands ih =>
    have hnext := exit_runNext sys command m
    rw [hexit, Option.isSome_none, or_iff_left Bool.false_ne_true] at hnext
    rw [runCommands, untilExit]
    split_ifs with hsome hcommand hcommand
    · exact ran_runNext sys command m
    · exact absurd (hnext.mp hsome) hcommand
    · exact absurd (hnext.mpr hcommand) hsome
    · rw [ih (Option.not_isSome_iff_eq_none.mp hsome), ran_runNext, List.append_assoc]
      rfl

theorem runCommands_append (first second : List Command) (hexit : (runCommands sys first m).shell.exit = none) :
    runCommands sys (first ++ second) m = runCommands sys second (runCommands sys first m) := by
  induction first generalizing m with
  | nil => rfl
  | cons command commands ih =>
    rw [List.cons_append, runCommands]
    rw [runCommands] at hexit ⊢
    split_ifs at hexit ⊢ with hsome
    · rw [hexit] at hsome
      contradiction
    · exact ih hexit

theorem runCommands_exit (commands : List Command) (hexit : (runCommands sys commands m).shell.exit = none) :
    m.shell.exit = none := by
  induction commands generalizing m with
  | nil => exact hexit
  | cons command commands ih =>
    have hnext : (runNext sys command m).shell.exit = none := by
      rw [runCommands] at hexit
      split_ifs at hexit with hsome
      · exact hexit
      · exact Option.not_isSome_iff_eq_none.mp hsome
    by_contra hnone
    have hsome := (exit_runNext sys command m).mpr (.inr (Option.isSome_iff_ne_none.mpr hnone))
    rw [hnext] at hsome
    contradiction

/-! ## Two lines -/

/-- With the same variables for any other: only values differ between the tokens of a line. -/
theorem operators_simulation (lookup lookup' : Lookup) :
    Simulation .finish .finish lookup lookup' (fun _ _ => True)
      (fun l l' => ∀ kind, .redirect kind ∈ l ↔ .redirect kind ∈ l') where
  refl _ := trivial
  append _ _ := trivial
  push _ hl kind := by simp only [List.mem_append, hl kind]
  finish {s t} hst := by
    have hfinish (u : Lexer) (kind : RedirectKind) :
        .redirect kind ∈ u.finish.tokens ↔ .redirect kind ∈ u.tokens := by
      unfold Lexer.finish
      split_ifs
      · simp
      · rfl
    have hfresh (u : Lexer) : u.finish.inWord = false ∧ u.finish.quoted = false := by
      unfold Lexer.finish
      split_ifs <;> exact ⟨rfl, rfl⟩
    refine ⟨fun kind => ?_, trivial, ?_, ?_⟩
    · rw [hfinish, hfinish, hst.tokens]
    · rw [(hfresh s).1, (hfresh t).1]
    · rw [(hfresh s).2, (hfresh t).2]
  valueOf _ := trivial

theorem parseLoop_of_noRedirect {commands : List Command} {current : Command}
    (h : ∀ kind, .redirect kind ∉ tokens) : ∃ commands', parseLoop commands current tokens = .ok commands' := by
  fun_induction parseLoop commands current tokens with
  | case1 commands current => exact ⟨_, rfl⟩
  | case2 commands current word quoted tokens ih => exact ih fun kind => (h kind ∘ List.mem_cons_of_mem _)
  | case3 commands current kind target quoted tokens ih => exact absurd List.mem_cons_self (h kind)
  | case4 commands current kind tokens => exact absurd List.mem_cons_self (h kind)
  | case5 commands current tokens ih => exact ih fun kind => (h kind ∘ List.mem_cons_of_mem _)

theorem noRedirect_of_targets (h : targets tokens = some []) (kind : RedirectKind) : .redirect kind ∉ tokens := by
  fun_induction targets tokens with
  | case1 => exact List.not_mem_nil
  | case2 kind target quoted rest hsurvives ih =>
    obtain ⟨redirects, -, hcons⟩ := Option.map_eq_some_iff.mp h
    contradiction
  | case3 => contradiction
  | case4 => contradiction
  | case5 token rest hword hredirect ih =>
    rintro (_ | ⟨_, hmem⟩)
    · exact hredirect _ rfl
    · exact ih h hmem

/-- A line without a command has no redirection either, and is parsed with any variables. -/
theorem parse_of_nil {line : Text} (h : parse line lookup = .ok []) (lookup' : Lookup) :
    ∃ commands, parse line lookup' = .ok commands := by
  obtain ⟨tokens, htokens, -⟩ := Except.bind_eq_ok_iff.mp h
  obtain ⟨written, -, rfl⟩ := (written_alike line lookup).exists_of_ok htokens
  have htargets := parse_targets htokens fun _ => survives_of_mem
  rw [h] at htargets
  obtain ⟨tokens', htokens', hsame⟩ :=
    ((operators_simulation lookup lookup').tokenizeLoop_alike ⟨fun _ => Iff.rfl, trivial, rfl, rfl⟩
      line).exists_of_ok_left htokens
  obtain ⟨commands, hcommands⟩ : ∃ commands, parseLoop [] ⟨[], []⟩ tokens' = .ok commands :=
    parseLoop_of_noRedirect fun kind hmem => noRedirect_of_targets htargets.symm kind ((hsame kind).mpr hmem)
  exact ⟨commands, Except.bind_eq_ok_iff.mpr ⟨tokens', htokens', hcommands⟩⟩

/-- The same commands have been run, with the same words and redirections, and the shell is left with the same
variables and the same status. -/
def SameRun (m m' : Machine World) : Prop :=
  m.ran = m'.ran ∧ m.shell = m'.shell

theorem untilExit_eq_nil {commands : List Command} (h : untilExit commands = []) : commands = [] := by
  cases commands with
  | nil => rfl
  | cons command commands =>
    rw [untilExit] at h
    split_ifs at h

/-- **One line for two.** Where both lines parse, and the first does not exit the shell, `c1 ; c2` runs as the
one line and then the other exactly if the second one's commands, up to one that exits the shell, are the same
with the variables and the status before and after the first line. -/
theorem runLine_append (sys : System World) (m : Machine World) (first second : Text)
    (hreads : ∃ t, ReadsThrough m.shell.lookup Lexer.start first t)
    (hfirst : ∃ commands, parse first m.shell.lookup = .ok commands)
    (hexit : (runLine sys first m).shell.exit = none)
    (hsecond : (∃ commands, parse second m.shell.lookup = .ok commands) ∨
      ∃ commands, parse second (runLine sys first m).shell.lookup = .ok commands) :
    SameRun (runLine sys (first ++ " ; ".toList ++ second) m) (runLine sys second (runLine sys first m)) ↔
      (parse second m.shell.lookup).map untilExit =
        (parse second (runLine sys first m).shell.lookup).map untilExit := by
  obtain ⟨t, hreads⟩ := hreads
  obtain ⟨commands, hfirst⟩ := hfirst
  have hrun : runLine sys first m = runCommands sys commands m := by
    rw [runLine, hfirst]
  rw [hrun] at hexit hsecond ⊢
  have hran := ran_runCommands sys commands (runCommands_exit sys commands hexit)
  have hline := parse_append hreads hfirst second
  -- a line that is not parsed runs nothing
  have herror {line : Text} {u : Machine World} {error : ParseError} (h : parse line u.shell.lookup = .error error) :
      (runLine sys line u).ran = u.ran := by
    rw [runLine, h]
    rfl
  cases hbefore : parse second m.shell.lookup with
  | error error =>
    rw [hbefore] at hline
    refine iff_of_false (fun hsame => ?_) fun hmap => ?_
    · obtain ⟨after, hafter⟩ := hsecond.resolve_left fun ⟨_, h⟩ => absurd (hbefore.symm.trans h) (by simp)
      have hsame := hsame.1
      rw [herror hline, runLine, hafter, ran_runCommands sys after hexit, hran, List.append_assoc,
        List.self_eq_append_right, List.append_eq_nil_iff] at hsame
      -- nothing has been run before the second line
      obtain rfl := untilExit_eq_nil hsame.1
      exact absurd (hbefore.symm.trans hafter) (by simp)
    · obtain ⟨after, hafter⟩ := hsecond.resolve_left fun ⟨_, h⟩ => absurd (hbefore.symm.trans h) (by simp)
      rw [hafter] at hmap
      contradiction
  | ok before =>
    rw [hbefore] at hline
    have hone : runLine sys (first ++ " ; ".toList ++ second) m =
        runCommands sys before (runCommands sys commands m) := by
      rw [runLine, hline]
      exact runCommands_append sys commands before hexit
    rw [hone]
    cases hafter : parse second (runCommands sys commands m).shell.lookup with
    | error error =>
      refine iff_of_false (fun hsame => ?_) (fun h => by cases h)
      have hsame := hsame.1
      rw [herror hafter, ran_runCommands sys before hexit, List.append_right_eq_self] at hsame
      obtain rfl := untilExit_eq_nil hsame
      obtain ⟨after, hparsed⟩ := parse_of_nil hbefore (runCommands sys commands m).shell.lookup
      exact absurd (hafter.symm.trans hparsed) (by simp)
    | ok after =>
      have htwo : runLine sys second (runCommands sys commands m) =
          runCommands sys after (runCommands sys commands m) := by
        rw [runLine, hafter]
      rw [htwo]
      constructor
      · intro hsame
        have hsame := hsame.1
        rw [ran_runCommands sys before hexit, ran_runCommands sys after hexit, List.append_cancel_left_eq] at hsame
        exact congrArg Except.ok hsame
      · intro hmap
        rw [runCommands_untilExit sys before, runCommands_untilExit sys after, Except.ok.inj hmap]
        exact ⟨rfl, rfl⟩

/-! ### Lines of plain words -/

theorem readsThrough_plain (s : Lexer) {text : Text}
    (h : ∀ character ∈ text, isName character = true ∨ character = ' ' ∨ character = '=') :
    ∃ t, ReadsThrough lookup s text t := by
  induction text generalizing s with
  | nil => exact ⟨s, .nil s⟩
  | cons character text ih =>
    have hplain := h character List.mem_cons_self
    have hspecial : ∀ special ∈ ['\t', '\n', '\r', '#', ';', '<', '>', '\'', '"', '\\', '$'],
        ¬ (isName special = true ∨ special = ' ' ∨ special = '=') := by
      decide
    have hother : ∀ special ∈ ['\t', '\n', '\r', '#', ';', '<', '>', '\'', '"', '\\', '$'], character ≠ special :=
      fun special hmem heq => hspecial special hmem (heq ▸ hplain)
    have hrest := fun other hmem => h other (List.mem_cons_of_mem _ hmem)
    by_cases hspace : character = ' '
    · obtain ⟨t, ht⟩ := ih s.finish hrest
      refine ⟨t, .cons (fun hescape => absurd hescape (hother _ (by decide))) ?_ ht⟩
      rw [step, if_pos (.inl hspace)]
    · obtain ⟨t, ht⟩ := ih (s.grow false (s.word ++ [character])) hrest
      refine ⟨t, .cons (fun hescape => absurd hescape (hother _ (by decide))) ?_ ht⟩
      simp only [List.forall_mem_cons] at hother
      obtain ⟨htab, hnewline, hreturn, hcomment, hsemicolon, hless, hgreater, hsingle, hdouble, hescape, hdollar, -⟩ :=
        hother
      simp only [step, hspace, htab, hnewline, hreturn, hcomment, hsemicolon, hless, hgreater, hsingle, hdouble, hescape,
        hdollar, or_self, false_and, if_false]

/-- A system without programs and files, with one directory. -/
def bareSystem : System Unit where
  chdir _ _ := ((), .ok ())
  getcwd _ := .ok ['/']
  isFile _ _ := false
  openFile _ _ _ := ((), .error [])
  writeFile _ _ := ((), none)
  fork _ := ((), .error [])
  dup2 _ _ := ((), false)
  exec _ _ _ _ := ((), .error [])
  exitNow _ _ := ()
  wait _ := ((), .error [])

/-- The status is the same before and after `cd`. -/
theorem runLine_append_status :
    SameRun (runLine bareSystem ("cd".toList ++ " ; ".toList ++ "echo $?".toList) (.start ∅ ()))
      (runLine bareSystem "echo $?".toList (runLine bareSystem "cd".toList (.start ∅ ()))) :=
  (runLine_append bareSystem (.start ∅ ()) "cd".toList "echo $?".toList
    (readsThrough_plain _ (by decide)) ⟨[⟨["cd".toList], []⟩], by decide +kernel⟩ (by decide +kernel)
    (.inl ⟨[⟨["echo".toList, ['0']], []⟩], by decide +kernel⟩)).mpr (by decide +kernel)

/-- `export X=1 ; echo $X` runs `echo` without an argument, where `X` was not set before. -/
theorem runLine_not_append : ¬ ∀ (sys : System Unit) (m : Machine Unit) (first second : Text),
    (∃ t, ReadsThrough m.shell.lookup Lexer.start first t) →
    (∃ commands, parse first m.shell.lookup = .ok commands) →
    (runLine sys first m).shell.exit = none →
    ((∃ commands, parse second m.shell.lookup = .ok commands) ∨
      ∃ commands, parse second (runLine sys first m).shell.lookup = .ok commands) →
    SameRun (runLine sys (first ++ " ; ".toList ++ second) m) (runLine sys second (runLine sys first m)) := by
  intro h
  have hsame := h bareSystem (.start ∅ ()) "export X=1".toList "echo $X".toList
    (readsThrough_plain _ (by decide)) ⟨[⟨["export".toList, "X=1".toList], []⟩], by decide +kernel⟩
    (by decide +kernel) (.inl ⟨[⟨["echo".toList], []⟩], by decide +kernel⟩)
  exact absurd hsame.1 (by decide +kernel)

end SaeOS.Shell
